import GridMarkup.Element
import GridMarkup.Text.Escape

/-!
# Writing tokens

One spelling for each token: attributes stand after single blanks, values in double quotes. Text is
escaped only on request and never inside a raw text element.
-/

namespace GridMarkup.Token

open Text

def attributeChars (escape : Bool) (a : Attribute) : List Char :=
  ' ' :: a.name.toList ++
    match a.value with
    | none => []
    | some value => "=\"".toList ++ escapedValue escape value.toList ++ ['"']

def startTagChars (escape : Bool) (tag : StartTag) : List Char :=
  '<' :: tag.name.toList ++ tag.attributes.flatMap (attributeChars escape) ++
    (if tag.selfClosing then " />" else ">").toList

/-- The text of a token that stands in raw text or not. -/
def chars (escape raw : Bool) : Token → List Char
  | .startTag tag => startTagChars escape tag
  | .endTag name => "</".toList ++ name.toList ++ ['>']
  | .text content => if escape && !raw then escapedText content.toList else content.toList
  | .comment content => "<!--".toList ++ content.toList ++ "-->".toList
  | .declaration content => "<!".toList ++ content.toList ++ ['>']

/-- Whether raw text follows a token. Any end tag ends it. -/
def rawAfter (raw : Bool) : Token → Bool
  | .startTag tag => Element.opensRawText tag
  | .endTag _ => false
  | _ => raw

def writeFrom (escape raw : Bool) : List Token → List Char
  | [] => []
  | t :: tokens => t.chars escape raw ++ writeFrom escape (t.rawAfter raw) tokens

def write (escape : Bool) (tokens : List Token) : String :=
  String.ofList (writeFrom escape false tokens)

end GridMarkup.Token
