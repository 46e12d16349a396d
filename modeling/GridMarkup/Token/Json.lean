import GridMarkup.Token

/-!
# Tokens as JSON

A list of tokens is printed as a JSON array, one field to a line, two blanks for each level.
-/

namespace GridMarkup.Token.Json

def hexDigits (n : Nat) : String :=
  String.ofList [Nat.digitChar (n / 16), Nat.digitChar (n % 16)]

/-- Quotes, backslashes and the control characters below the blank are escaped. -/
def escapeChar (c : Char) : String :=
  if c = '"' then "\\\""
  else if c = '\\' then "\\\\"
  else if c = '\x08' then "\\b"
  else if c = '\x0c' then "\\f"
  else if c = '\n' then "\\n"
  else if c = '\r' then "\\r"
  else if c = '\t' then "\\t"
  else if c.toNat < 0x20 then "\\u00" ++ hexDigits c.toNat
  else c.toString

def quoted (s : String) : String := "\"" ++ String.join (s.toList.map escapeChar) ++ "\""

def margin (depth : Nat) : String := String.ofList (List.replicate (2 * depth) ' ')

/-- Items between brackets, each on a line of its own; no items, no lines. -/
def bracketed (left right : String) (depth : Nat) (items : List String) : String :=
  if items.isEmpty then left ++ right
  else
    left ++ "\n" ++ ",\n".intercalate (items.map (margin (depth + 1) ++ ·)) ++ "\n" ++
      margin depth ++ right

def array (depth : Nat) (items : List String) : String := bracketed "[" "]" depth items

def object (depth : Nat) (fields : List (String × String)) : String :=
  bracketed "\x7b" "\x7d" depth (fields.map fun (key, value) => quoted key ++ ": " ++ value)

def bool (b : Bool) : String := if b then "true" else "false"

def ofAttribute (depth : Nat) (a : Attribute) : String :=
  object depth [("name", quoted a.name), ("value", (a.value.map quoted).getD "null")]

def ofToken (depth : Nat) : Token → String
  | .startTag tag =>
    object depth
      [("type", quoted "start_tag"), ("name", quoted tag.name),
        ("attributes", array (depth + 1) (tag.attributes.map (ofAttribute (depth + 2)))),
        ("self_closing", bool tag.selfClosing)]
  | .endTag name => object depth [("type", quoted "end_tag"), ("name", quoted name)]
  | .text content => object depth [("type", quoted "text"), ("content", quoted content)]
  | .comment content => object depth [("type", quoted "comment"), ("content", quoted content)]
  | .declaration content => object depth [("type", quoted "doctype"), ("content", quoted content)]

def ofTokens (tokens : List Token) : String := array 0 (tokens.map (ofToken 1))

end GridMarkup.Token.Json
