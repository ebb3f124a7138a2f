import Nya.Tree.Basic

/-!
# Reading tokens

The grammar is written once, over the operations of `Parsing`: they say where tokens are read from,
where the nodes of expressions are kept, and how reading goes on after a fault. The parser that the
program runs is the instance `Parser` of `Parse/Parser.lean`.
-/

namespace Nya

/-! ## Faults -/

/-- What a parse found missing or wrong. -/
inductive SyntaxCause where
  | functionName | functionParen | parameterName | parametersEnd | functionBody
  | tooManyParameters | tooManyArguments
  | variableName | variableEnd
  | forParen | forCondition | forClauses
  | ifParen | ifCondition
  | whileParen | whileCondition
  | printEnd | returnEnd | expressionEnd | blockEnd | argumentsEnd | groupEnd
  | expression | assignmentTarget
  deriving DecidableEq, Repr

/-- The wording of a fault. -/
def SyntaxCause.message : SyntaxCause → String
  | functionName => "Expected function name."
  | functionParen => "Expected '(' after function name."
  | parameterName => "Expected parameter name."
  | parametersEnd => "Expected ')' after parameters."
  | functionBody => "Expected ':>' before function body."
  | tooManyParameters => "Can't have more than 255 parameters."
  | tooManyArguments => "Can't have more than 255 arguments."
  | variableName => "Expected variable name."
  | variableEnd => "Expected ';' after variable declaration."
  | forParen => "Expected '(' after '^o^'."
  | forCondition => "Expected ';' after loop condition."
  | forClauses => "Expected ')' after for clauses."
  | ifParen => "Expected '(' after '^u^'."
  | ifCondition => "Expected ')' after if condition."
  | whileParen => "Expected '(' after '^w^'."
  | whileCondition => "Expected ')' after condition."
  | printEnd => "Expected ';' after value."
  | returnEnd => "Expected ';' after return."
  | expressionEnd => "Expected ';' after expression."
  | blockEnd => "Expected '<:' after block."
  | argumentsEnd => "Expected ')' after arguments."
  | groupEnd => "Expected ')' after expression."
  | expression => "Expected expression."
  | assignmentTarget => "Invalid assignment target."

/-- A fault, and the token at which it was found. -/
structure SyntaxError where
  token : Token
  cause : SyntaxCause
  deriving DecidableEq, Repr

/-- The report of a fault. -/
def SyntaxError.message (e : SyntaxError) : String :=
  "[line " ++ Number.digitsOf e.token.line ++ "] Error " ++ e.token.place ++ ": " ++ e.cause.message

/-! ## Operations -/

/-- The operations that the grammar is written in. -/
class Parsing (m : Type → Type) extends Monad m where
  /-- The outcome when the fuel is used up. -/
  outOfFuel {α : Type} : m α
  /-- Stops at the next token. -/
  fail {α : Type} (cause : SyntaxCause) : m α
  /-- Records a fault at a token that was taken, and goes on. -/
  report (token : Token) (cause : SyntaxCause) : m Unit
  /-- Records a fault at the next token and goes on. -/
  reportHere (cause : SyntaxCause) : m Unit
  /-- Builds an expression whose node has a new number. -/
  build (make : Nat → Expr) : m Expr
  /-- The number of a new function declaration. -/
  newFunction : m Nat
  /-- The next token, if this is not the end. -/
  peek? : m (Option Token)
  /-- Takes the next token if it passes the test. -/
  takeIf (test : Token → Bool) : m (Option Token)
  /-- Reads a declaration. A fault is recorded, and reading goes on at a likely start. -/
  declared {α : Type} (declaration : m α) : m (Option α)

namespace Parsing

variable {m : Type → Type} [Parsing m] {α : Type}

/-- Takes the next token if it is the symbol. -/
def take? (symbol : Symbol) : m (Option Token) := takeIf fun t => t.isSymbol symbol

/-- Takes the next token if it is one of the symbols. -/
def takeAny? (symbols : List Symbol) : m (Option Token) := takeIf fun t => symbols.any t.isSymbol

/-- Takes the next token, which has to be the symbol. -/
def expect (symbol : Symbol) (cause : SyntaxCause) : m Token := do
  match ← take? symbol with
  | some t => pure t
  | none => fail cause

/-- Takes the next token, which has to be an identifier. -/
def expectName (cause : SyntaxCause) : m Token := do
  match ← takeIf fun t => t.kind == .identifier with
  | some t => pure t
  | none => fail cause

/-- Whether the next token is the symbol. -/
def nextIs (symbol : Symbol) : m Bool := do
  return (← peek?).any fun t => t.isSymbol symbol

/-- A list of items, which is empty if the symbol behind it is next. -/
def listBefore (stop : Symbol) (items : m (List α)) : m (List α) := do
  if ← nextIs stop then pure [] else items

end Parsing

end Nya
