/-!
# Open elements

The names of the elements that are open, innermost first. An end tag closes the innermost element of
its name and everything opened inside it; an end tag of no open element changes nothing.
-/

namespace GridMarkup

structure OpenElements where
  names : List String := []
  deriving DecidableEq, Repr

namespace OpenElements

def size (e : OpenElements) : Nat := e.names.length

def isEmpty (e : OpenElements) : Bool := e.names.isEmpty

def contains (e : OpenElements) (name : String) : Bool := e.names.contains name

def push (e : OpenElements) (name : String) : OpenElements := ⟨name :: e.names⟩

/-- Drops the names up to and with the first `name`, if there is one. -/
def close (e : OpenElements) (name : String) : OpenElements :=
  if e.contains name then ⟨(e.names.dropWhile (· != name)).drop 1⟩ else e

end OpenElements

end GridMarkup
