import Nya.Json
import Nya.Token.Basic

/-!
# Tokens as JSON

A token is an object with its kind, its text and its line. The kind of a literal is an object, too,
whose one field is the value.
-/

namespace Nya

/-- The JSON form of a kind: its name, or an object with the value of a literal. -/
def Kind.toJson : Kind → Json
  | .string text => .object [("STRING", .string text)]
  | .number value => .object [("NUMBER", .number (Number.json value))]
  | kind => .string kind.name

/-- The JSON form of a token. -/
def Token.toJson (t : Token) : Json :=
  .object [("token_type", t.kind.toJson), ("lexeme", .string t.lexeme),
    ("line", .number (Number.digitsOf t.line))]

/-- The JSON form of a list of tokens. -/
def Token.listToJson (tokens : List Token) : Json := .array (tokens.map Token.toJson)

end Nya
