import Nya.Number.Text

/-!
# JSON documents as text

Two layouts of one document: all on one line without blanks, and indented by two blanks a level.
-/

namespace Nya

/-- A JSON document. Numbers are given by their text. -/
inductive Json where
  | number (text : String)
  | string (text : String)
  | array (items : List Json)
  | object (fields : List (String × Json))

namespace Json

/-! ## Strings -/

/-- A hexadecimal digit in lower case. -/
def hexDigit (n : Nat) : Char := Nat.digitChar (n % 16)

/-- One character of a JSON string: quotes, backslashes and control characters are escaped. -/
def escapeChar (c : Char) : List Char :=
  if c == '"' then ['\\', '"']
  else if c == '\\' then ['\\', '\\']
  else if c == '\x08' then ['\\', 'b']
  else if c == '\x0c' then ['\\', 'f']
  else if c == '\n' then ['\\', 'n']
  else if c == '\r' then ['\\', 'r']
  else if c == '\t' then ['\\', 't']
  else if c.toNat < 0x20 then ['\\', 'u', '0', '0', hexDigit (c.toNat / 16), hexDigit c.toNat]
  else [c]

/-- A JSON string with its quotes. -/
def quoted (s : String) : String :=
  "\"" ++ String.ofList (s.toList.flatMap escapeChar) ++ "\""

/-! ## Layouts -/

mutual

/-- A document on one line. -/
def compact : Json → String
  | .number text => text
  | .string text => quoted text
  | .array items => "[" ++ ",".intercalate (compactItems items) ++ "]"
  | .object fields => "\x7b" ++ ",".intercalate (compactFields fields) ++ "\x7d"

/-- The items of an array, each on one line. -/
def compactItems : List Json → List String
  | [] => []
  | item :: items => item.compact :: compactItems items

/-- The fields of an object, each on one line. -/
def compactFields : List (String × Json) → List String
  | [] => []
  | (key, value) :: fields => (quoted key ++ ":" ++ value.compact) :: compactFields fields

end

/-- A new line at the given level. -/
def newline (level : Nat) : String :=
  "\n" ++ String.ofList (List.replicate (2 * level) ' ')

/-- Puts the entries of a container between its two brackets, one entry a line. -/
def enclosed (level : Nat) (start stop : String) (entries : List String) : String :=
  if entries.isEmpty then start ++ stop
  else
    start ++ newline (level + 1) ++ ("," ++ newline (level + 1)).intercalate entries ++
      newline level ++ stop

mutual

/-- A document over several lines, at the given level. -/
def prettyAt (level : Nat) : Json → String
  | .number text => text
  | .string text => quoted text
  | .array items => enclosed level "[" "]" (prettyItems level items)
  | .object fields => enclosed level "\x7b" "\x7d" (prettyFields level fields)

/-- The items of an array at the given level. -/
def prettyItems (level : Nat) : List Json → List String
  | [] => []
  | item :: items => item.prettyAt (level + 1) :: prettyItems level items

/-- The fields of an object at the given level. -/
def prettyFields (level : Nat) : List (String × Json) → List String
  | [] => []
  | (key, value) :: fields =>
    (quoted key ++ ": " ++ value.prettyAt (level + 1)) :: prettyFields level fields

end

/-- A document over several lines. -/
def pretty (document : Json) : String := document.prettyAt 0

end Json

end Nya
