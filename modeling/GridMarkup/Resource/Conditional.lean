import GridMarkup.Resource.Kind
import GridMarkup.Resource.Layout
import GridMarkup.Token.Write

/-!
# Conditional comments

A comment of the form `[if ...]> ... <![endif]` hides markup from most readers. Resources listed in
its body are expanded in place; its frame and any other comment stay as they are.
-/

namespace GridMarkup.Resource

open Text

/-- A comment in three parts: the frame before the body, the body, and the frame behind it. The
blanks around the body belong to the body in front and to the frame behind. -/
structure Conditional where
  opening : List Char
  body : List Char
  closing : List Char
  deriving DecidableEq, Repr

/-- What stands before `mark` in a text that ends with it. -/
def stripEnd? (mark s : List Char) : Option (List Char) :=
  (strip? mark.reverse s.reverse).map List.reverse

/-- The frame before the body, and the text after it. -/
def conditionalOpening? (s : List Char) : Option (List Char × List Char) :=
  match strip? "[if ".toList (trimStart s) with
  | none => none
  | some rest =>
    (strip? "]>".toList (rest.dropWhile (· != ']'))).map fun after =>
      (leadingBlanks s ++ "[if ".toList ++ rest.takeWhile (· != ']') ++ "]>".toList, after)

def Conditional.ofComment? (s : List Char) : Option Conditional :=
  match conditionalOpening? s with
  | none => none
  | some (opening, rest) =>
    (stripEnd? "<![endif]".toList (trimEnd rest)).map fun inner =>
      { opening := opening
        body := trimEnd inner
        closing := trailing isBlank inner ++ "<![endif]".toList ++ trailing isBlank rest }

def Piece.chars (kind : Kind) : Piece → List Char
  | .text s => s
  | .resource url => Token.writeFrom false false (kind.tokens (String.ofList url))

/-- The comment with the resources of a conditional body expanded. -/
def expandComment (kind : Kind) (indent s : List Char) : List Char :=
  match Conditional.ofComment? s with
  | none => s
  | some c => c.opening ++ (layout indent false c.body).flatMap (Piece.chars kind) ++ c.closing

end GridMarkup.Resource
