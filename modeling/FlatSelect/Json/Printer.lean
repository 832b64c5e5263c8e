import FlatSelect.Json.Basic

/-!
# Writing JSON

A value is written compactly, without blanks, or with a line for each item, indented by two blanks a
level. Quotes, backslashes and control characters are escaped, and nothing else is.
-/

namespace FlatSelect

namespace Json

/-- The hexadecimal digit of a number below 16. -/
def hexDigit (n : Nat) : Char :=
  if n < 10 then Char.ofNat ('0'.toNat + n) else Char.ofNat ('a'.toNat + (n - 10))

/-- A character as it stands in a quoted text. -/
def escape (c : Char) : List Char :=
  match c with
  | '"' => ['\\', '"']
  | '\\' => ['\\', '\\']
  | '\x08' => ['\\', 'b']
  | '\x0c' => ['\\', 'f']
  | '\n' => ['\\', 'n']
  | '\r' => ['\\', 'r']
  | '\t' => ['\\', 't']
  | c =>
    if c.toNat < 0x20 then ['\\', 'u', '0', '0', hexDigit (c.toNat / 16), hexDigit (c.toNat % 16)]
    else [c]

/-- A text between quotes. What stands for no text is written as the empty one. -/
def quote (text : Option String) : String :=
  "\"" ++ String.ofList ((text.getD "").toList.flatMap escape) ++ "\""

mutual
/-- A value without blanks. -/
def compact : Json → String
  | .null => "null"
  | .bool true => "true"
  | .bool false => "false"
  | .num digits => digits
  | .str text => quote text
  | .arr items => "[" ++ compactItems items ++ "]"
  | .obj fields => "\x7b" ++ compactFields fields ++ "\x7d"
/-- The items of an array, set apart by commas. -/
def compactItems : List Json → String
  | [] => ""
  | [item] => item.compact
  | item :: next :: rest => item.compact ++ "," ++ compactItems (next :: rest)
/-- The fields of an object, set apart by commas. -/
def compactFields : List (Option String × Json) → String
  | [] => ""
  | [(key, value)] => quote key ++ ":" ++ value.compact
  | (key, value) :: next :: rest =>
    quote key ++ ":" ++ value.compact ++ "," ++ compactFields (next :: rest)
end

/-- The start of a line at some depth. -/
def newLine (depth : Nat) : String :=
  "\n" ++ String.ofList (List.replicate (2 * depth) ' ')

mutual
/-- A value over several lines, from a line at some depth on. -/
def prettyAt (depth : Nat) : Json → String
  | .arr [] => "[]"
  | .arr items => "[" ++ prettyItems (depth + 1) items ++ newLine depth ++ "]"
  | .obj [] => "\x7b\x7d"
  | .obj fields => "\x7b" ++ prettyFields (depth + 1) fields ++ newLine depth ++ "\x7d"
  | .null => "null"
  | .bool true => "true"
  | .bool false => "false"
  | .num digits => digits
  | .str text => quote text
/-- The items of an array, each on a line. -/
def prettyItems (depth : Nat) : List Json → String
  | [] => ""
  | [item] => newLine depth ++ item.prettyAt depth
  | item :: next :: rest =>
    newLine depth ++ item.prettyAt depth ++ "," ++ prettyItems depth (next :: rest)
/-- The fields of an object, each on a line. -/
def prettyFields (depth : Nat) : List (Option String × Json) → String
  | [] => ""
  | [(key, value)] => newLine depth ++ quote key ++ ": " ++ value.prettyAt depth
  | (key, value) :: next :: rest =>
    newLine depth ++ quote key ++ ": " ++ value.prettyAt depth ++ "," ++
      prettyFields depth (next :: rest)
end

/-- A value over several lines. -/
def pretty (value : Json) : String :=
  value.prettyAt 0

end Json

end FlatSelect
