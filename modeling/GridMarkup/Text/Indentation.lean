import GridMarkup.Text.Blank

/-!
# Indentation

The indentation that a text leaves is the run of blanks at its end, back to the last line feed.
-/

namespace GridMarkup.Text

def indentation (s : List Char) : List Char := trailing (fun c => isBlank c && c != '\n') s

end GridMarkup.Text
