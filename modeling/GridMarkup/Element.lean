import GridMarkup.Token

/-!
# Kinds of elements

Void elements have no content and no end tag. The content of raw text elements is no markup. Both
kinds are told by name, without regard to ASCII case.
-/

namespace GridMarkup.Element

/-- ASCII capitals become small letters. -/
def lower (name : List Char) : List Char := name.map Char.toLower

def voidNames : List String :=
  ["area", "base", "br", "col", "embed", "hr", "img", "input", "link", "meta", "param", "source",
    "track", "wbr"]

def rawTextNames : List String := ["script", "style"]

def isVoid (name : String) : Bool := voidNames.contains (String.ofList (lower name.toList))

def isRawText (name : String) : Bool := rawTextNames.contains (String.ofList (lower name.toList))

def opensRawText (tag : StartTag) : Bool := !tag.selfClosing && isRawText tag.name

/-- The tag opens an element that an end tag has to close. -/
def opensElement (tag : StartTag) : Bool := !tag.selfClosing && !isVoid tag.name

end GridMarkup.Element
