import Dialplan.Json.Value
/-!
# Writing JSON

Two written forms of a value: `compact`, without any space, and `pretty`, one item a line, two
spaces for every level. Text is written as it is but for quotes, backslashes and control characters.
-/

namespace Dialplan.Json

/-- A digit of a `\u` escape. -/
def hexDigit (n : Nat) : Char := if n < 10 then Char.ofNat (48 + n) else Char.ofNat (87 + n)

/-- A character inside a string. -/
def escapeChar (c : Char) : String :=
  if c = '"' then "\\\""
  else if c = '\\' then "\\\\"
  else if c = '\n' then "\\n"
  else if c = '\r' then "\\r"
  else if c = '\t' then "\\t"
  else if c = '\x08' then "\\b"
  else if c = '\x0c' then "\\f"
  else if c.toNat < 0x20 then
    "\\u00" ++ String.singleton (hexDigit (c.toNat / 16)) ++
      String.singleton (hexDigit (c.toNat % 16))
  else String.singleton c

/-- A text between quotes. -/
def quote (s : String) : String := "\"" ++ String.join (s.toList.map escapeChar) ++ "\""

/-- A number with a fraction or an exponent, as it was written. -/
def decimalText (d : Decimal) : String :=
  (if d.negative then "-" else "") ++ d.whole ++
    (if d.fraction.isEmpty then "" else "." ++ d.fraction) ++
    (if d.exponent = 0 then "" else "e" ++ toString d.exponent)

/-- The start of a line at a level of nesting. -/
def newline (level : Nat) : String := "\n" ++ String.join (List.replicate level "  ")

mutual

/-- The form without spaces. -/
def compact : Json → String
  | .null => "null"
  | .bool b => if b then "true" else "false"
  | .int n => toString n
  | .real d => decimalText d
  | .str s => quote s
  | .arr items => "[" ++ ",".intercalate (compactItems items) ++ "]"
  | .obj members => "\x7b" ++ ",".intercalate (compactMembers members) ++ "\x7d"

/-- The items of an array, each without spaces. -/
def compactItems : List Json → List String
  | [] => []
  | v :: rest => v.compact :: compactItems rest

/-- The members of an object, each without spaces. -/
def compactMembers : List (String × Json) → List String
  | [] => []
  | (name, v) :: rest => (quote name ++ ":" ++ v.compact) :: compactMembers rest

end

mutual

/-- The form with one item a line, for a value that starts at this level of nesting. -/
def prettyAt (level : Nat) : Json → String
  | .null => "null"
  | .bool b => if b then "true" else "false"
  | .int n => toString n
  | .real d => decimalText d
  | .str s => quote s
  | .arr items =>
    if items.isEmpty then "[]"
    else "[" ++ ",".intercalate (prettyItems (level + 1) items) ++ newline level ++ "]"
  | .obj members =>
    if members.isEmpty then "\x7b\x7d"
    else "\x7b" ++ ",".intercalate (prettyMembers (level + 1) members) ++ newline level ++ "\x7d"

/-- The items of an array, each on a line of its own at this level of nesting. -/
def prettyItems (level : Nat) : List Json → List String
  | [] => []
  | v :: rest => (newline level ++ v.prettyAt level) :: prettyItems level rest

/-- The members of an object, each on a line of its own at this level of nesting. -/
def prettyMembers (level : Nat) : List (String × Json) → List String
  | [] => []
  | (name, v) :: rest =>
    (newline level ++ quote name ++ ": " ++ v.prettyAt level) :: prettyMembers level rest

end

/-- The form with one item a line. -/
def pretty (v : Json) : String := v.prettyAt 0

end Dialplan.Json
