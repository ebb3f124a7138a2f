import Nya.Token.Scanning

/-!
# Scanning source text

`recognise` looks at the start of the text and says what stands there and how many characters it
takes; `segments` repeats this to the end, so that the segments of a text put together are the text
again. Blanks and comments are segments, too. `scan` keeps the tokens and the faults in their
order and adds the mark at the end of the input.

The loop of `segments` ends because each round takes at least one character.
-/

namespace Nya

/-! ## Recognising one piece -/

instance : CodeUnit Char where
  test test := test

/-- Where the scan of a lexeme in a text stands. -/
structure TextScanner where
  /-- The text from the start of the lexeme on. -/
  text : List Char
  /-- The text from the cursor on. -/
  rest : List Char
  /-- How many characters are between the start and the cursor. -/
  taken : Nat

/-- A part of the scan of a lexeme in a text. -/
def TextScan (α : Type) := TextScanner → α × TextScanner

namespace Scan

/-- The operators with their spellings. -/
def operatorTable : List (Symbol × List Char) :=
  Symbol.operators.map fun s => (s, s.spelling.toList)

/-- The keywords with their spellings. -/
def keywordTable : List (Symbol × List Char) :=
  Symbol.keywords.map fun s => (s, s.spelling.toList)

/-- The operator a text starts with, and its length. -/
def operator? (text : List Char) : Option (Symbol × Nat) :=
  (operatorTable.find? fun entry => entry.2.isPrefixOf text).map fun entry =>
    (entry.1, entry.2.length)

/-- The keyword that is spelled as a word. -/
def keyword? (word : List Char) : Option Symbol :=
  (keywordTable.find? fun entry => entry.2 == word).map Prod.fst

end Scan

namespace TextScanner

/-- The scanner with its cursor the given number of characters behind the start. -/
def moveTo (s : TextScanner) (taken : Nat) : TextScanner :=
  { s with rest := s.text.drop taken, taken }

/-- The scanner with its cursor moved on by the given number of characters. -/
def pass (s : TextScanner) (n : Nat) : TextScanner :=
  { s with rest := s.rest.drop n, taken := s.taken + n }

/-- The text between the start and the cursor. -/
def lexeme (s : TextScanner) : List Char := s.text.take s.taken

end TextScanner

namespace TextScan

instance : Monad TextScan where
  pure value := fun s => (value, s)
  bind r k := fun s =>
    let (value, next) := r s
    k value next

/-- The operator that the lexeme starts with, and the cursor behind it. -/
def matchOperator : TextScan (Option Symbol) := fun s =>
  match Scan.operator? s.text with
  | some (symbol, n) => (some symbol, s.moveTo n)
  | none => (none, s)

instance : Scanning Char TextScan where
  isAtEnd := fun s => (s.rest.isEmpty, s)
  advance := fun s => (s.rest.headD '\x00', s.pass 1)
  peek := fun s => (s.rest.headD '\x00', s)
  peekNext := fun s => (s.rest.tail.headD '\x00', s)
  advanceWhile test := fun s => ((), s.pass (s.rest.takeWhile test).length)
  advanceUntil stop := fun s => ((), s.pass (s.rest.takeWhile fun c => !stop c).length)
  skipLine := fun s => ((), s.pass (s.rest.takeWhile (· != '\n')).length)
  matchText text := fun s =>
    if text.isPrefixOf s.rest then (true, s.pass text.length) else (false, s)
  matchOperator _ := matchOperator
  newLine := fun s => ((), s)
  restart := fun s => ((), s.moveTo 1)
  lexeme := fun s => (String.ofList s.lexeme, s)
  inner := fun s => (String.ofList s.lexeme.tail.dropLast, s)
  keyword? := fun s => (Scan.keyword? s.lexeme, s)
  firstChar := fun s => (s.text.headD '\x00', s.moveTo 1)

/-- Scans one lexeme. -/
def scanToken : TextScan Piece := Scanning.scanToken

end TextScan

/--
What stands at the start of the text `c :: cs`, and how many characters of `cs` belong to it.
-/
def Scan.recognise (c : Char) (cs : List Char) : Piece × Nat :=
  let (piece, s) := TextScan.scanToken ⟨c :: cs, c :: cs, 0⟩
  (piece, s.taken - 1)

/-! ## Segments -/

/-- A stretch of the source, what it is, and the line on which it ends. -/
structure Segment where
  piece : Piece
  text : List Char
  line : Nat
  deriving DecidableEq, Repr

/-- How many lines a text ends. -/
def newlines (text : List Char) : Nat := text.count '\n'

/-- Cuts a text that starts on the given line into segments. -/
def segments (line : Nat) : List Char → List Segment
  | [] => []
  | c :: cs =>
    let found := Scan.recognise c cs
    let text := c :: cs.take found.2
    let last := line + newlines text
    ⟨found.1, text, last⟩ :: segments last (cs.drop found.2)
termination_by text => text.length

/-- The segments of a text put together are the text. -/
theorem flatMap_text_segments (line : Nat) (text : List Char) :
    (segments line text).flatMap Segment.text = text := by
  induction h : text.length using Nat.strongRecOn generalizing line text with
  | ind n ih =>
    cases text with
    | nil => simp [segments]
    | cons c cs =>
      have hlt : (cs.drop (Scan.recognise c cs).2).length < n := by
        simp only [List.length_cons] at h
        simp only [List.length_drop]
        omega
      rw [segments]
      simp [ih _ hlt _ _ rfl]

/-! ## Tokens and faults -/

/-- Why a stretch of the source is no token. -/
inductive ScanCause where
  | unexpected (c : Char)
  | unterminated
  deriving DecidableEq, Repr

/-- A fault found while scanning, with its line. -/
structure ScanError where
  line : Nat
  cause : ScanCause
  deriving DecidableEq, Repr

/-- The wording of a fault. -/
def ScanCause.message : ScanCause → String
  | .unexpected c => "Unexpected character: " ++ String.singleton c
  | .unterminated => "Unterminated string."

/-- The report of a fault. -/
def ScanError.message (e : ScanError) : String :=
  "[line " ++ Number.digitsOf e.line ++ "] Error: " ++ e.cause.message

/-- What scanning yields: a token or a fault. -/
abbrev ScanItem := Except ScanError Token

/-- What a segment yields. Blanks and comments yield nothing. -/
def Segment.item? (s : Segment) : Option ScanItem :=
  match s.piece with
  | .token kind => some (.ok ⟨kind, String.ofList s.text, s.line⟩)
  | .unexpected c => some (.error ⟨s.line, .unexpected c⟩)
  | .unterminated => some (.error ⟨s.line, .unterminated⟩)
  | .blank | .comment => none

/-- Drops the byte-order mark that a text may start with. -/
def dropMark : List Char → List Char
  | c :: cs => if c == '\ufeff' then cs else c :: cs
  | [] => []

/-- The tokens and faults of a source text, in order, with the mark at the end. -/
def scan (source : String) : List ScanItem :=
  let text := dropMark source.toList
  (segments 1 text).filterMap Segment.item? ++ [.ok ⟨.eof, "", 1 + newlines text⟩]

/-- The tokens among the items. -/
def scannedTokens (items : List ScanItem) : List Token :=
  items.filterMap Except.toOption

/-- The faults among the items. -/
def scanErrors (items : List ScanItem) : List ScanError :=
  items.filterMap fun
    | .error e => some e
    | .ok _ => none

end Nya
