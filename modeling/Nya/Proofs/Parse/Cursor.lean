import Nya.Proofs.Parse.Outcome

/-!
# Parsing by positions

A *walker* parses a list of tokens that it never takes apart. It has a cursor, which is a position
in the list, and reads the token there and the one before it. A position may lie outside the list;
a walk that reads there is over. The end of the input is the first token that marks one: more tokens
may follow, and the list may have no such mark at all.

The cursor keeps a record of its way, and of where each declaration began and ended. That walkers
read what the parsers read, and stay within the list if there is a mark in it, is shown in
`Parse/Positions.lean`.
-/

namespace Nya.Parse

/-- Where a parse by positions stands. -/
structure Cursor where
  current : Nat
  nodes : Nat
  functions : Nat
  errors : List SyntaxError
  /-- All positions so far, the current one at the end. -/
  trail : List Nat
  /-- The positions before and after each call for a declaration. -/
  calls : List (Nat × Nat)
  deriving DecidableEq, Repr

/-- How a walk ends. -/
inductive Walk (α : Type) where
  | ok (value : α) (next : Cursor)
  | fault (e : SyntaxError) (next : Cursor)
  /-- A position outside the list was read. -/
  | outside
  | exhausted

/-- A parser by positions. -/
def Walker (α : Type) := List Token → Cursor → Walk α

/-- The cursor before anything is read. -/
def Cursor.start (nodes functions : Nat) : Cursor := ⟨0, nodes, functions, [], [0], []⟩

/-- The cursor one position on. -/
def Cursor.step (c : Cursor) : Cursor :=
  { c with current := c.current + 1, trail := c.trail ++ [c.current + 1] }

/-- The cursor with a record of a call for a declaration that has ended here. -/
def Cursor.called (c : Cursor) (start : Nat) : Cursor :=
  { c with calls := c.calls ++ [(start, c.current)] }

namespace Walker

variable {α : Type}

instance : Monad Walker where
  pure value := fun _ c => .ok value c
  bind w k := fun tokens c =>
    match w tokens c with
    | .ok value next => k value tokens next
    | .fault e next => .fault e next
    | .outside => .outside
    | .exhausted => .exhausted

/-! ## Positions -/

/-- Gives up. -/
def outOfFuel : Walker α := fun _ _ => .exhausted

/-- Stops at a fault. -/
def raise (e : SyntaxError) : Walker α := fun _ c => .fault e c

/-- The cursor as it stands. -/
def cursor : Walker Cursor := fun _ c => .ok c c

/-- The token at a position. -/
def tokenAt (position : Nat) : Walker Token := fun tokens c =>
  match tokens[position]? with
  | some t => .ok t c
  | none => .outside

/-- The token at the cursor. -/
def peek : Walker Token := do tokenAt (← cursor).current

/-- The token before the cursor; at the start, the one there. -/
def previous : Walker Token := do tokenAt ((← cursor).current - 1)

/-- Whether the token at the cursor marks the end. -/
def isAtEnd : Walker Bool := do return (← peek).isEof

/-- Moves the cursor on. -/
def moveOn : Walker Unit := fun _ c => .ok () c.step

/-- Moves the cursor on, but not from the end, and gives the token before it. -/
def advance : Walker Token := do
  if ← isAtEnd then previous
  else
    moveOn
    previous

/-- The token at the cursor, if this is not the end. -/
def peek? : Walker (Option Token) := do
  if ← isAtEnd then pure none else return some (← peek)

/-- Whether the token at the cursor passes a test that the end never passes. -/
def check (test : Token → Bool) : Walker Bool := do
  if ← isAtEnd then pure false else return test (← peek)

/-- Takes the token at the cursor if it passes the test. -/
def takeIf (test : Token → Bool) : Walker (Option Token) := do
  if ← check test then return some (← advance) else pure none

/-- Stops at the token at the cursor. -/
def fail (cause : SyntaxCause) : Walker α := do raise ⟨← peek, cause⟩

/-- Records a fault. -/
def report (e : SyntaxError) : Walker Unit := fun _ c => .ok () { c with errors := c.errors ++ [e] }

/-- Records a fault at the token at the cursor. -/
def reportHere (cause : SyntaxCause) : Walker Unit := do report ⟨← peek, cause⟩

/-- Gives out a number for a node. -/
def newNode : Walker Nat := fun _ c => .ok c.nodes { c with nodes := c.nodes + 1 }

/-- Gives out a number for a function. -/
def newFunction : Walker Nat := fun _ c => .ok c.functions { c with functions := c.functions + 1 }

/-! ## Recovery -/

/-- Moves the cursor on until a statement has ended or a new one starts. -/
def skipFrom (tokens : List Token) (c : Cursor) : Walk Unit :=
  match _h : tokens[c.current]? with
  | none => .outside
  | some t =>
    if t.isEof then .ok () c
    else
      match tokens[c.current - 1]? with
      | none => .outside
      | some last =>
        if last.isSymbol .semicolon || starters.any t.isSymbol then .ok () c
        else skipFrom tokens c.step
termination_by tokens.length - c.current
decreasing_by
  have hlt := (List.getElem?_eq_some_iff.mp _h).1
  show tokens.length - (c.current + 1) < tokens.length - c.current
  omega

/-- Recovers from where the cursor is. -/
def skip : Walker Unit := fun tokens c => skipFrom tokens c

/-- Moves the cursor to where reading goes on after a fault. The faulty token is passed, too. -/
def synchronize : Walker Unit := do
  let _ ← advance
  skip

/-- Records a fault and moves on to where reading goes on. -/
def recovering (w : Walker α) : Walker (Option α) := fun tokens c =>
  match w tokens c with
  | .ok value next => .ok (some value) next
  | .fault e next => (report e >>= fun _ => synchronize >>= fun _ => pure none) tokens next
  | .outside => .outside
  | .exhausted => .exhausted

/-- Records a call for a declaration that ends here. -/
def recordCall (start : Nat) : Walker Unit := fun _ c => .ok () (c.called start)

/-- A call for a declaration. -/
def declared (w : Walker α) : Walker (Option α) := do
  let before ← cursor
  let value ← recovering w
  recordCall before.current
  pure value

/-! ## Programs -/

instance : Parsing Walker where
  outOfFuel := outOfFuel
  fail := fail
  report token cause := report ⟨token, cause⟩
  reportHere := reportHere
  build make := do return make (← newNode)
  newFunction := newFunction
  peek? := peek?
  takeIf := takeIf
  declared := declared

/-- The declarations up to the end of the input. -/
def declarations (n : Nat) : Walker (List (Option Stmt)) := Parsing.declarations n

/-- The declarations and what else a parse yields. -/
def parsed (n : Nat) : Walker Parsed := do
  let statements ← declarations n
  let c ← cursor
  return ⟨statements, c.errors, c.nodes, c.functions⟩

/-- Parses a list of tokens with the given fuel. -/
def parse (n : Nat) (tokens : List Token) (nodes functions : Nat) : Walk Parsed :=
  parsed n tokens (.start nodes functions)

end Walker

end Nya.Parse
