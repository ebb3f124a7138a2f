import Nya.Number.Text

/-!
# Tokens

A token is a kind, the exact text it was read from, and a line. The kinds with a fixed spelling are
gathered in `Symbol`; the other kinds are identifiers, the two kinds of literal that carry a value,
and the mark at the end of the input.
-/

namespace Nya

/-! ## Symbols -/

/-- The kinds of token that have one spelling: punctuation, operators and keywords. -/
inductive Symbol where
  | leftParen | rightParen | blockStart | blockEnd | comma | dot | semicolon
  | plus | minus | star | slash | percent
  | bang | bangEqual | equal | equalEqual | greater | greaterEqual | less | lessEqual
  | and | or
  | var | const | function | ret
  | ifThen | ifElse | forLoop | whileLoop
  | print | yes | no | nil
  | typeNumber | typeString | typeBoolean
  deriving DecidableEq, Repr, Inhabited

namespace Symbol

/-- The one spelling of a symbol. -/
def spelling : Symbol → String
  | leftParen => "(" | rightParen => ")" | blockStart => ":>" | blockEnd => "<:"
  | comma => "," | dot => "." | semicolon => ";"
  | plus => "+.+" | minus => "-.-" | star => "+.*" | slash => "-.*" | percent => "%.%"
  | bang => "~" | bangEqual => "_o_" | equal => "o/" | equalEqual => "\\o/"
  | greater => "\\o\\" | greaterEqual => "\\o_" | less => "/o/" | lessEqual => "_o/"
  | and => "&.&" | or => "v.v"
  | var => ">.<" | const => ">w<" | function => ":D" | ret => "c:"
  | ifThen => "^u^" | ifElse => "^e^" | forLoop => "^o^" | whileLoop => "^w^"
  | print => "pwint" | yes => "twue" | no => "fawse" | nil => "nuww"
  | typeNumber => "Numbew" | typeString => "Stwing" | typeBoolean => "Boowean"

/-- The name under which token listings show a symbol. -/
def name : Symbol → String
  | leftParen => "LEFT_PAREN" | rightParen => "RIGHT_PAREN"
  | blockStart => "BLOCK_START" | blockEnd => "BLOCK_END"
  | comma => "COMMA" | dot => "DOT" | semicolon => "SEMICOLON"
  | plus => "PLUS" | minus => "MINUS" | star => "STAR" | slash => "SLASH" | percent => "PERCENT"
  | bang => "BANG" | bangEqual => "BANG_EQUAL" | equal => "EQUAL" | equalEqual => "EQUAL_EQUAL"
  | greater => "GREATER" | greaterEqual => "GREATER_EQUAL"
  | less => "LESS" | lessEqual => "LESS_EQUAL"
  | and => "AND" | or => "OR"
  | var => "VAR" | const => "CONST" | function => "FUN" | ret => "RETURN"
  | ifThen => "IF" | ifElse => "ELSE" | forLoop => "FOR" | whileLoop => "WHILE"
  | print => "PRINT" | yes => "TRUE" | no => "FALSE" | nil => "NIL"
  | typeNumber => "TYPE_NUMBER" | typeString => "TYPE_STRING" | typeBoolean => "TYPE_BOOL"

/-- The symbols that are recognised wherever a token may start. None begins another. -/
def operators : List Symbol :=
  [leftParen, rightParen, blockStart, blockEnd, comma, dot, semicolon,
    plus, minus, star, slash, percent,
    bang, bangEqual, equal, equalEqual, greater, greaterEqual, less, lessEqual,
    and, or, var, const, function, ret, ifThen, ifElse, forLoop, whileLoop]

/-- The symbols that are spelt like identifiers. -/
def keywords : List Symbol :=
  [print, yes, no, nil, typeNumber, typeString, typeBoolean]

/-- The symbol with the given name. -/
def ofName? (s : String) : Option Symbol :=
  (operators ++ keywords).find? fun symbol => symbol.name == s

end Symbol

/-! ## Kinds and tokens -/

/-- What a token is. Literals carry the value they stand for. -/
inductive Kind where
  | symbol (s : Symbol)
  | identifier
  | string (text : String)
  | number (value : Float)
  | eof
  deriving DecidableEq, Repr, Inhabited

/-- The name under which token listings show a kind. -/
def Kind.name : Kind → String
  | .symbol s => s.name
  | .identifier => "IDENTIFIER"
  | .string _ => "STRING"
  | .number _ => "NUMBER"
  | .eof => "EOF"

/-- A token: its kind, the text it was read from, and its line, counted from one. -/
structure Token where
  kind : Kind
  lexeme : String
  line : Nat
  deriving DecidableEq, Repr, Inhabited

namespace Token

/-- Whether a token is the given symbol. -/
def isSymbol (t : Token) (s : Symbol) : Bool := t.kind == .symbol s

/-- The symbol a token is, if it is one. -/
def symbol? (t : Token) : Option Symbol :=
  match t.kind with
  | .symbol s => some s
  | _ => none

/-- Whether a token marks the end of the input. -/
def isEof (t : Token) : Bool := t.kind == .eof

/-- The value column of a token listing: `null` unless the token is a literal. -/
def literalText (t : Token) : String :=
  match t.kind with
  | .string text => text
  | .number value => Number.listing value
  | _ => "null"

/-- One line of a token listing. -/
def listing (t : Token) : String :=
  t.kind.name ++ " " ++ t.lexeme ++ " " ++ t.literalText

/-- Where a diagnostic about a token says it is. -/
def place (t : Token) : String :=
  if t.isEof then "at end" else "at '" ++ t.lexeme ++ "'"

end Token

end Nya
