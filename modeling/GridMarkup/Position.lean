/-!
# Positions

A position counts bytes, lines and columns from zero; columns are characters. It follows from the
text before it.
-/

namespace GridMarkup

structure Position where
  byte : Nat := 0
  line : Nat := 0
  column : Nat := 0
  deriving DecidableEq, Repr

structure Span where
  start : Position
  stop : Position
  deriving DecidableEq, Repr

namespace Position

def next (p : Position) (c : Char) : Position where
  byte := p.byte + c.utf8Size
  line := if c = '\n' then p.line + 1 else p.line
  column := if c = '\n' then 0 else p.column + 1

/-- The position behind a text that starts at `p`. -/
def after (p : Position) (s : List Char) : Position := s.foldl next p

@[simp] theorem after_nil (p : Position) : p.after [] = p := rfl

@[simp] theorem after_cons (p : Position) (c : Char) (s : List Char) :
    p.after (c :: s) = (p.next c).after s := rfl

@[simp] theorem after_append (p : Position) (s t : List Char) :
    p.after (s ++ t) = (p.after s).after t := List.foldl_append

end Position

end GridMarkup
