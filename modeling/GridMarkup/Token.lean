/-!
# Tokens

Markup is a list of tokens in document order. Names and contents keep the spelling of the source.
-/

namespace GridMarkup

/-- An attribute without `=` has no value; `a=""` has an empty one. -/
structure Attribute where
  name : String
  value : Option String := none
  deriving DecidableEq, Repr

/-- The text of the value, empty for an attribute without one. -/
def Attribute.text (a : Attribute) : String := a.value.getD ""

structure StartTag where
  name : String
  attributes : List Attribute := []
  selfClosing : Bool := false
  deriving DecidableEq, Repr

def StartTag.attribute? (tag : StartTag) (name : String) : Option Attribute :=
  tag.attributes.find? (·.name == name)

/-- Comments and declarations hold what stands between their delimiters. -/
inductive Token where
  | startTag (tag : StartTag)
  | endTag (name : String)
  | text (content : String)
  | comment (content : String)
  | declaration (content : String)
  deriving DecidableEq, Repr

end GridMarkup
