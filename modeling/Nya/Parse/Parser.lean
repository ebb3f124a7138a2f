import Nya.Parse.Program

/-!
# The parser

The state of a parse is the list of the tokens that are left, the numbers for the next expression
node and the next function declaration, and the faults found so far. The mark at the end of the
input is not in the list: an empty list is the end.

A parser succeeds, stops at a fault, or runs out of fuel. A fault keeps the state in which it was
found, since reading goes on from there after the faulty declaration: the fault is recorded, and
tokens are skipped up to a likely start of a statement.
-/

namespace Nya

namespace Parse

/-- A fault as the parser records it: without a token it lies at the end of the input. -/
structure Fault where
  site : Option Token
  cause : SyntaxCause
  deriving DecidableEq, Repr

/-- The fault with its token, given the mark at the end of the input. -/
def Fault.locate (stop : Token) (f : Fault) : SyntaxError := ⟨f.site.getD stop, f.cause⟩

/-- The state of a parse. -/
structure State where
  rest : List Token
  nodes : Nat
  functions : Nat
  faults : List Fault
  deriving DecidableEq, Repr

/-- How a parser ends. -/
inductive Outcome (α : Type) where
  | ok (value : α) (next : State)
  | fault (f : Fault) (next : State)
  | exhausted

end Parse

/-- A parser reads tokens off the state. -/
def Parser (α : Type) := Parse.State → Parse.Outcome α

namespace Parse

instance : Monad Parser where
  pure value := fun s => .ok value s
  bind p f := fun s =>
    match p s with
    | .ok value next => f value next
    | .fault f next => .fault f next
    | .exhausted => .exhausted

/-! ## Operations -/

/-- The outcome when the fuel is used up. -/
def outOfFuel {α : Type} : Parser α := fun _ => .exhausted

/-- Stops at the next token. -/
def fail {α : Type} (cause : SyntaxCause) : Parser α := fun s => .fault ⟨s.rest.head?, cause⟩ s

/-- Records a fault and goes on. -/
def report (f : Fault) : Parser Unit := fun s => .ok () { s with faults := s.faults ++ [f] }

/-- Records a fault at the next token and goes on. -/
def reportHere (cause : SyntaxCause) : Parser Unit := fun s => report ⟨s.rest.head?, cause⟩ s

/-- The number of a new expression node. -/
def newNode : Parser Nat := fun s => .ok s.nodes { s with nodes := s.nodes + 1 }

/-- The number of a new function declaration. -/
def newFunction : Parser Nat := fun s => .ok s.functions { s with functions := s.functions + 1 }

/-- The next token. -/
def peek? : Parser (Option Token) := fun s => .ok s.rest.head? s

/-- Takes the next token if it passes the test. -/
def takeIf (test : Token → Bool) : Parser (Option Token) := fun s =>
  match s.rest with
  | [] => .ok none s
  | t :: rest => if test t then .ok (some t) { s with rest } else .ok none s

/-! ## Recovery -/

/-- The symbols at which reading goes on after a fault. -/
def starters : List Symbol :=
  [.function, .var, .const, .forLoop, .ifThen, .whileLoop, .print, .ret]

/-- Skips tokens after `last` until a statement has ended or a new one starts. -/
def skip (last : Token) : List Token → List Token
  | [] => []
  | t :: rest =>
    if last.isSymbol .semicolon || starters.any t.isSymbol then t :: rest else skip t rest

/-- The tokens left after a fault. The faulty token itself is always skipped. -/
def recover : List Token → List Token
  | [] => []
  | t :: rest => skip t rest

/-- Records a fault of a declaration and skips to where reading goes on. -/
def recovering {α : Type} (p : Parser α) : Parser (Option α) := fun s =>
  match p s with
  | .ok value next => .ok (some value) next
  | .fault f next => .ok none { next with rest := recover next.rest, faults := next.faults ++ [f] }
  | .exhausted => .exhausted

instance : Parsing Parser where
  outOfFuel := outOfFuel
  fail := fail
  report token cause := report ⟨some token, cause⟩
  reportHere := reportHere
  build make := do return make (← newNode)
  newFunction := newFunction
  peek? := peek?
  takeIf := takeIf
  declared := recovering

/-! ## Programs -/

/-- The declarations up to the end of the input. -/
def declarations (n : Nat) : Parser (List (Option Stmt)) := Parsing.declarations n

/-- Fuel enough for a list of tokens: the calls between two tokens, once for every token. -/
def fuelFor (tokens : List Token) : Nat := 16 * (tokens.length + 1)

end Parse

/-- What parsing a list of tokens yields. A declaration with a fault leaves an empty slot. -/
structure Parsed where
  statements : List (Option Stmt)
  errors : List SyntaxError
  /-- The number for the next expression node. -/
  nodes : Nat
  /-- The number for the next function declaration. -/
  functions : Nat

/-- The tokens before the first mark of the end, and that mark. -/
def splitAtEnd : List Token → List Token × Token
  | [] => ([], ⟨.eof, "", 1⟩)
  | t :: ts =>
    if t.isEof then ([], t)
    else
      let (rest, stop) := splitAtEnd ts
      (t :: rest, stop)

/-- Parses a list of tokens, numbering nodes and functions from the given numbers. -/
def parse (tokens : List Token) (nodes functions : Nat) : Parsed :=
  let (rest, stop) := splitAtEnd tokens
  match Parse.declarations (Parse.fuelFor rest) ⟨rest, nodes, functions, []⟩ with
  | .ok statements s => ⟨statements, s.faults.map (Parse.Fault.locate stop), s.nodes, s.functions⟩
  | .fault f s => ⟨[], [f.locate stop], s.nodes, s.functions⟩
  | .exhausted => ⟨[], [], nodes, functions⟩

end Nya
