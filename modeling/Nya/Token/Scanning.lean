import Nya.Token.Basic

/-!
# Scanning a lexeme

How a lexeme is told from its first character on is written once, over the operations of
`Scanning`: they say what the scanner looks at, and how its cursor moves. The scanner that the
program runs goes along a list of characters (`Token/Scan.lean`).

An operator is taken whole or not at all. Where nothing is recognised one character is a fault, and
scanning goes on right after it.
-/

namespace Nya

/-- What stands at the start of a text. -/
inductive Piece where
  | token (kind : Kind)
  | blank
  | comment
  | unexpected (c : Char)
  | unterminated
  deriving DecidableEq, Repr

namespace Scan

/-- The characters between tokens. -/
def isBlank (c : Char) : Bool := c == ' ' || c == '\r' || c == '\t' || c == '\n'

/-- The characters an identifier starts with. -/
def isWordStart (c : Char) : Bool := c.isAlpha || c == '_'

/-- The characters an identifier goes on with. -/
def isWordPart (c : Char) : Bool := c.isAlphanum || c == '_'

/-- The number that a run of decimal digits writes. -/
def digitsValue (ds : List Char) : Nat :=
  ds.foldl (fun n d => 10 * n + (d.toNat - '0'.toNat)) 0

/-- The number that a literal writes: digits, and perhaps a point and more digits. -/
def numberValue (text : List Char) : Float :=
  let whole := text.takeWhile Char.isDigit
  let part := text.drop (whole.length + 1)
  Float.ofScientific (digitsValue (whole ++ part)) true part.length

end Scan

/-! ## Operations -/

/-- What a scanner looks at: a character, or a part of one. -/
class CodeUnit (U : Type) where
  /-- Whether the unit is a character that passes the test. -/
  test : (Char → Bool) → U → Bool

/-- The operations that lexemes are scanned with. -/
class Scanning (U : outParam Type) (m : Type → Type) extends Monad m where
  /-- Whether the cursor is at the end. -/
  isAtEnd : m Bool
  /-- Moves the cursor on by one unit, and gives this. -/
  advance : m U
  /-- The unit at the cursor, or zero at the end. -/
  peek : m U
  /-- The unit behind that at the cursor, or zero. -/
  peekNext : m U
  /-- Moves the cursor on as long as the unit there passes the test. -/
  advanceWhile (test : U → Bool) : m Unit
  /-- Moves the cursor on to a unit that passes the test, or to the end, and counts lines. -/
  advanceUntil (stop : U → Bool) : m Unit
  /-- Moves the cursor on to the end of the line. -/
  skipLine : m Unit
  /-- Moves the cursor on behind a text if this is next. -/
  matchText (text : List Char) : m Bool
  /-- The operator that the lexeme starts with, and the cursor behind it. -/
  matchOperator (lead : U) : m (Option Symbol)
  /-- Counts a line. -/
  newLine : m Unit
  /-- Moves the cursor back behind the first unit of the lexeme. -/
  restart : m Unit
  /-- The lexeme up to the cursor. -/
  lexeme : m String
  /-- The lexeme up to the cursor without its first and its last unit. -/
  inner : m String
  /-- The keyword that the lexeme up to the cursor is. -/
  keyword? : m (Option Symbol)
  /-- The first character of the lexeme, and the cursor behind it. -/
  firstChar : m Char

/-! ## Lexemes -/

namespace Scanning

open CodeUnit (test)

variable {U : Type} {m : Type → Type} [CodeUnit U] [Scanning U m]

/-- The rest of a comment, up to the end of its line. -/
def comment : m Piece := do
  skipLine
  pure .comment

/-- The rest of a string, with the quote that closes it. -/
def string : m Piece := do
  advanceUntil (test (· == '"'))
  if ← isAtEnd then pure .unterminated
  else
    let _ ← advance
    return .token (.string (← inner))

/-- A point and the digits behind it, if there are any. -/
def fraction : m Unit := do
  let next ← peek
  let second ← peekNext
  if test (· == '.') next && test Char.isDigit second then
    let _ ← advance
    advanceWhile (test Char.isDigit)
  else pure ()

/-- The rest of a number. -/
def number : m Piece := do
  advanceWhile (test Char.isDigit)
  fraction
  return .token (.number (Scan.numberValue (← lexeme).toList))

/-- An identifier or a keyword. Its first unit may have been looked at as that of an operator. -/
def word : m Piece := do
  restart
  advanceWhile (test Scan.isWordPart)
  match ← keyword? with
  | some symbol => pure (.token (.symbol symbol))
  | none => pure (.token .identifier)

/-- The lexeme whose first unit was just passed, if it is neither a comment nor an operator. -/
def plain (lead : U) : m Piece :=
  if test (· == '\n') lead then do
    newLine
    pure .blank
  else if test Scan.isBlank lead then pure .blank
  else if test (· == '"') lead then string
  else if test Char.isDigit lead then number
  else if test Scan.isWordStart lead then word
  else return .unexpected (← firstChar)

/-- The lexeme whose first unit was just passed, if it is no comment. -/
def operatorOrPlain (lead : U) : m Piece := do
  match ← matchOperator lead with
  | some symbol => pure (.token (.symbol symbol))
  | none => plain lead

/-- Scans one lexeme. -/
def scanToken : m Piece := do
  let lead ← advance
  let isComment ← (if test (· == '/') lead then matchText ['/'] else pure false)
  if isComment then comment else operatorOrPlain lead

end Scanning

end Nya
