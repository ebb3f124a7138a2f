import Nya.Proofs.Text.Bytes
import Nya.Token.Scan

/-!
# Scanning by bytes

A scanner that never takes its source apart: it has a cursor, which is a position in the bytes of
the source, and the position at which the lexeme in hand starts. It looks at single bytes, though a
character may have several, and takes slices of the source. Lexemes are told by the clauses of
`Scanning`; only the operations are those of bytes.

Much can go wrong with that. A byte can be asked for behind the end, a position can leave the
source, a slice can cut a character in two, and a round can take nothing, so that the scanner never
comes to an end. Each of these is a mishap and ends the scan. That there is none, and that the
scanner yields what `scan` does, is shown in `Token/Boundaries.lean`.
-/

namespace Nya

open Text

/-- What can go wrong with positions. -/
inductive Mishap where
  | pastEnd
  | outside
  | cut
  | stalled
  deriving DecidableEq, Repr

/-- The state of a scanner by bytes. -/
structure ByteScanner where
  /-- Where the lexeme in hand starts. -/
  start : Nat
  curr : Nat
  line : Nat
  /-- All positions of the cursor so far, the current one at the end. -/
  trail : List Nat
  /-- For each lexeme that was scanned, where it starts and where the cursor was left. -/
  calls : List (Nat × Nat)
  deriving DecidableEq, Repr

namespace ByteScanner

/-- The scanner with its cursor at another position. -/
def moveTo (s : ByteScanner) (position : Nat) : ByteScanner :=
  { s with curr := position, trail := s.trail ++ [position] }

/-- Whether the cursor is at the end, or behind it. -/
def isAtEnd (bytes : List UInt8) (s : ByteScanner) : Bool := decide (bytes.length ≤ s.curr)

/-- The byte at the cursor, or zero at the end. -/
def peek (bytes : List UInt8) (s : ByteScanner) : UInt8 := bytes.getD s.curr 0

/-- The byte behind that at the cursor, or zero. -/
def peekNext (bytes : List UInt8) (s : ByteScanner) : UInt8 := bytes.getD (s.curr + 1) 0

end ByteScanner

/-- A part of a scan. -/
def ByteScan (α : Type) := String → ByteScanner → Except Mishap (α × ByteScanner)

namespace ByteScan

variable {α : Type}

instance : Monad ByteScan where
  pure value := fun _ s => .ok (value, s)
  bind r k := fun source s =>
    match r source s with
    | .ok (value, next) => k value source next
    | .error mishap => .error mishap

/-! ## Positions -/

/-- Ends the scan. -/
def fail (mishap : Mishap) : ByteScan α := fun _ _ => .error mishap

/-- The scanner as it stands. -/
def scanner : ByteScan ByteScanner := fun _ s => .ok (s, s)

/-- The bytes of the source. -/
def bytes : ByteScan (List UInt8) := fun source s => .ok (sourceBytes source, s)

/-- Moves the cursor to a position. -/
def moveTo (position : Nat) : ByteScan Unit := fun _ s => .ok ((), s.moveTo position)

/-- Counts a line. -/
def newLine : ByteScan Unit := fun _ s => .ok ((), { s with line := s.line + 1 })

/-- Moves the cursor on by one byte, and gives this. -/
def advance : ByteScan UInt8 := do
  let s ← scanner
  match (← bytes)[s.curr]? with
  | none => fail .pastEnd
  | some b =>
    moveTo (s.curr + 1)
    pure b

/-- The bytes from the cursor on. -/
def remaining : ByteScan (List UInt8) := do
  let s ← scanner
  let all ← bytes
  if s.curr ≤ all.length then pure (all.drop s.curr) else fail .outside

/-- The bytes between two positions. -/
def bytesBetween (low high : Nat) : ByteScan (List UInt8) := do
  let all ← bytes
  if low ≤ high ∧ high ≤ all.length then pure ((all.drop low).take (high - low))
  else fail .outside

/-- The text between two positions. -/
def slice (low high : Nat) : ByteScan String := fun source s =>
  match slice? source low high with
  | some text => .ok (text, s)
  | none => .error .cut

/-- Moves the cursor on behind some bytes if these are next. -/
def matchBytes (tail : List UInt8) : ByteScan Bool := do
  if tail.isPrefixOf (← remaining) then
    let s ← scanner
    moveTo (s.curr + tail.length)
    pure true
  else pure false

/-- The first of the symbols whose bytes are next, and the cursor behind them. -/
def matchOperator (tails : List (List UInt8 × Symbol)) : ByteScan (Option Symbol) := do
  let rest ← remaining
  match tails.find? fun entry => entry.1.isPrefixOf rest with
  | none => pure none
  | some (tail, symbol) =>
    let s ← scanner
    moveTo (s.curr + tail.length)
    pure (some symbol)

/-- Moves the cursor on byte by byte as long as a condition holds, and counts some bytes as ends of
lines. -/
def advanceWhile (more : List UInt8 → ByteScanner → Bool) (endsLine : UInt8 → Bool)
    (source : String) (s : ByteScanner) : Except Mishap (Unit × ByteScanner) :=
  if more (sourceBytes source) s then
    match _h : (sourceBytes source)[s.curr]? with
    | none => .error .pastEnd
    | some b =>
      let next := s.moveTo (s.curr + 1)
      advanceWhile more endsLine source
        { next with line := if endsLine b then next.line + 1 else next.line }
  else .ok ((), s)
termination_by (sourceBytes source).length - s.curr
decreasing_by
  have hlt := (List.getElem?_eq_some_iff.mp _h).1
  show (sourceBytes source).length - (s.curr + 1) < (sourceBytes source).length - s.curr
  omega

/-! ## Lexemes -/

/-- The operators that start with a byte, with their other bytes. -/
def operatorTails (b : UInt8) : List (List UInt8 × Symbol) :=
  Symbol.operators.filterMap fun symbol =>
    match bytesOf symbol.spelling.toList with
    | [] => none
    | lead :: tail => if lead = b then some (tail, symbol) else none

/-- Moves the cursor on to the next end of a line, or to the end. -/
def skipLine : ByteScan Unit := do
  let rest ← remaining
  let s ← scanner
  moveTo (s.curr + rest.findIdx (isChar '\n'))

/-- The keyword whose bytes are those of the lexeme. -/
def keyword? : ByteScan (Option Symbol) := do
  let s ← scanner
  let word ← bytesBetween s.start s.curr
  return Symbol.keywords.find? fun symbol => bytesOf symbol.spelling.toList == word

/-- The first character of the lexeme, and the cursor behind it. -/
def firstChar : ByteScan Char := do
  let s ← scanner
  let text ← slice s.start (← bytes).length
  let c := text.toList.headD '\x00'
  moveTo (s.start + c.utf8Size)
  pure c

instance : CodeUnit UInt8 where
  test := testByte

instance : Scanning UInt8 ByteScan where
  isAtEnd := do return (← scanner).isAtEnd (← bytes)
  advance := advance
  peek := do return (← scanner).peek (← bytes)
  peekNext := do return (← scanner).peekNext (← bytes)
  advanceWhile test := advanceWhile (fun all s => test (s.peek all)) fun _ => false
  advanceUntil stop :=
    advanceWhile (fun all s => !s.isAtEnd all && !stop (s.peek all)) (isChar '\n')
  skipLine := skipLine
  matchText text := matchBytes (bytesOf text)
  matchOperator lead := matchOperator (operatorTails lead)
  newLine := newLine
  restart := do moveTo ((← scanner).start + 1)
  lexeme := do
    let s ← scanner
    slice s.start s.curr
  inner := do
    let s ← scanner
    slice (s.start + 1) (s.curr - 1)
  keyword? := keyword?
  firstChar := firstChar

/-! ## Items -/

/-- Starts a lexeme at the cursor. -/
def beginLexeme : ByteScan Unit := fun _ s => .ok ((), { s with start := s.curr })

/-- Records that a lexeme was scanned. -/
def recordCall : ByteScan Unit := fun _ s =>
  .ok ((), { s with calls := s.calls ++ [(s.start, s.curr)] })

/-- What the lexeme in hand yields. -/
def itemOf : Piece → ByteScan (Option ScanItem)
  | .token kind => do
    let s ← scanner
    let lexeme ← slice s.start s.curr
    pure (some (.ok ⟨kind, lexeme, s.line⟩))
  | .unexpected c => do return some (.error ⟨(← scanner).line, .unexpected c⟩)
  | .unterminated => do return some (.error ⟨(← scanner).line, .unterminated⟩)
  | .blank | .comment => pure none

/-- Scans one lexeme from the cursor on, and gives the item that it yields. -/
def round : ByteScan (Option ScanItem) := do
  beginLexeme
  let piece ← Scanning.scanToken
  recordCall
  itemOf piece

/-- All items from the cursor on. Behind the end there are none. -/
def items (source : String) (s : ByteScanner) : Except Mishap (List ScanItem × ByteScanner) :=
  if (sourceBytes source).length < s.curr then .ok ([], s)
  else if s.curr = (sourceBytes source).length then
    .ok ([.ok ⟨.eof, "", s.line⟩], s.moveTo (s.curr + 1))
  else
    match round source s with
    | .error mishap => .error mishap
    | .ok (item, next) =>
      if s.curr < next.curr then
        match items source next with
        | .error mishap => .error mishap
        | .ok (others, last) => .ok (item.toList ++ others, last)
      else .error .stalled
termination_by (sourceBytes source).length + 1 - s.curr

/-- The scanner before the first lexeme, behind a byte-order mark. -/
def start (source : String) : ByteScanner :=
  let mark := bytesOf ['\ufeff']
  let curr := if mark.isPrefixOf (sourceBytes source) then mark.length else 0
  ⟨curr, curr, 1, [curr], []⟩

/-- Scans a source by bytes. -/
def run (source : String) : Except Mishap (List ScanItem × ByteScanner) :=
  items source (start source)

end ByteScan

end Nya
