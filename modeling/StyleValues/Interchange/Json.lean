import StyleValues.Interchange.Message

/-!
# Messages as JSON

The messages of a run are written as an array of objects, indented by two
spaces. In a string the quote, the backslash and the control characters below
U+0020 are escaped, with the short form where JSON has one.
-/

set_option autoImplicit false

namespace StyleValues.Json

def twoDigits (n : Nat) : Text := [Nat.digitChar (n / 16), Nat.digitChar (n % 16)]

def escapeChar (c : Char) : Text :=
  if c = '"' then ['\\', '"']
  else if c = '\\' then ['\\', '\\']
  else if c = '\x08' then ['\\', 'b']
  else if c = '\x09' then ['\\', 't']
  else if c = '\x0a' then ['\\', 'n']
  else if c = '\x0c' then ['\\', 'f']
  else if c = '\x0d' then ['\\', 'r']
  else if c.toNat < 0x20 then "\\u00".toList ++ twoDigits c.toNat
  else [c]

def string (s : Text) : Text := '"' :: (s.flatMap escapeChar ++ ['"'])

def lines : List Text → Text
  | [] => []
  | [item] => item
  | item :: rest => item ++ ",\n".toList ++ lines rest

def field (entry : Text × Text) : Text :=
  "    ".toList ++ string entry.1 ++ ": ".toList ++ string entry.2

def message (m : Message) : Text :=
  "  \x7b\n".toList ++ lines (m.fields.map field) ++ "\n  \x7d".toList

def messages : List Message → Text
  | [] => "[]".toList
  | ms => "[\n".toList ++ lines (ms.map message) ++ "\n]".toList

end StyleValues.Json
