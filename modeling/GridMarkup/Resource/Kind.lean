import GridMarkup.Token

/-!
# Kinds of resources

A block of either kind lists addresses, one on a line, and each address stands for one include.
-/

namespace GridMarkup.Resource

inductive Kind where
  | scripts
  | stylesheets
  deriving DecidableEq, Repr

namespace Kind

def tagName : Kind → String
  | .scripts => "js"
  | .stylesheets => "css"

def ofTagName? (name : String) : Option Kind :=
  if name = "js" then some .scripts
  else if name = "css" then some .stylesheets
  else none

def tokens (url : String) : Kind → List Token
  | .scripts => [.startTag ⟨"script", [⟨"src", some url⟩], false⟩, .endTag "script"]
  | .stylesheets =>
    [.startTag ⟨"link", [⟨"href", some url⟩, ⟨"rel", some "stylesheet"⟩], false⟩]

end Kind

end GridMarkup.Resource
