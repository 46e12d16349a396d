/-!
# Escaping

What is written in place of a character that would end a text or a quoted value.
-/

namespace GridMarkup.Text

/-- In text, `&` and `<` are escaped. -/
def escapedText (s : List Char) : List Char :=
  s.flatMap fun c =>
    if c = '&' then "&amp;".toList else if c = '<' then "&lt;".toList else [c]

/-- In a quoted value the quote is escaped, and `&` where references were decoded before. -/
def escapedValue (ampersand : Bool) (s : List Char) : List Char :=
  s.flatMap fun c =>
    if c = '"' then "&quot;".toList
    else if c = '&' ∧ ampersand then "&amp;".toList
    else [c]

end GridMarkup.Text
