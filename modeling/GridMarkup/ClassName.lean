/-!
# Class names

The class names of the grid: columns and their shifts, and the classes that show or hide an element
on a screen.
-/

namespace GridMarkup

inductive Screen where
  | xs
  | sm
  | md
  | lg
  deriving DecidableEq, Repr

namespace Screen

def all : List Screen := [.xs, .sm, .md, .lg]

def text : Screen → String
  | .xs => "xs"
  | .sm => "sm"
  | .md => "md"
  | .lg => "lg"

end Screen

inductive Display where
  | block
  | inline
  | inlineBlock
  deriving DecidableEq, Repr

namespace Display

def all : List Display := [.block, .inline, .inlineBlock]

def text : Display → String
  | .block => "block"
  | .inline => "inline"
  | .inlineBlock => "inline-block"

end Display

inductive Shift where
  | offset
  | push
  | pull
  deriving DecidableEq, Repr

namespace Shift

def all : List Shift := [.offset, .push, .pull]

def text : Shift → String
  | .offset => "offset"
  | .push => "push"
  | .pull => "pull"

end Shift

inductive ClassName where
  | visible (screen : Screen) (display : Display)
  | hidden (screen : Screen)
  | column (screen : Screen) (size : Nat)
  | shift (screen : Screen) (way : Shift) (size : Nat)
  deriving DecidableEq, Repr

namespace ClassName

def text : ClassName → String
  | .visible screen display => "visible-" ++ screen.text ++ "-" ++ display.text
  | .hidden screen => "hidden-" ++ screen.text
  | .column screen size => "col-" ++ screen.text ++ "-" ++ toString size
  | .shift screen way size => "col-" ++ screen.text ++ "-" ++ way.text ++ "-" ++ toString size

def isSize : ClassName → Bool
  | .column _ _ => true
  | _ => false

end ClassName

end GridMarkup
