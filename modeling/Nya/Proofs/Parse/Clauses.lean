import Nya.Parse.Parser

/-!
# The clauses of the parser

The grammar of `Parsing`, as `Parser` reads it. Each clause is a parser of its own. The clauses
that call each other have an equation, and proofs about the parser go by these equations: they do
not look at the operations that the grammar is written in.
-/

namespace Nya.Parse

/-! ## Small parsers -/

/-- Takes the next token if it is the symbol. -/
def take? (symbol : Symbol) : Parser (Option Token) := takeIf fun t => t.isSymbol symbol

/-- Takes the next token if it is one of the symbols. -/
def takeAny? (symbols : List Symbol) : Parser (Option Token) :=
  takeIf fun t => symbols.any t.isSymbol

/-- Takes the next token, which has to be the symbol. -/
def expect (symbol : Symbol) (cause : SyntaxCause) : Parser Token := Parsing.expect symbol cause

theorem expect_eq (symbol : Symbol) (cause : SyntaxCause) :
    expect symbol cause = (do
      match ← take? symbol with
      | some t => pure t
      | none => fail cause) := rfl

/-- Takes the next token, which has to be an identifier. -/
def expectName (cause : SyntaxCause) : Parser Token := Parsing.expectName cause

theorem expectName_eq (cause : SyntaxCause) :
    expectName cause = (do
      match ← takeIf fun t => t.kind == .identifier with
      | some t => pure t
      | none => fail cause) := rfl

/-- Whether the next token is the symbol. -/
def nextIs (symbol : Symbol) : Parser Bool := Parsing.nextIs symbol

theorem nextIs_apply (symbol : Symbol) (s : State) :
    nextIs symbol s = .ok (s.rest.head?.any fun t => t.isSymbol symbol) s := rfl

/-- Records a fault if as many items have been read as there may be. -/
def limit (count : Nat) (cause : SyntaxCause) : Parser Unit := Parsing.limit count cause

theorem limit_eq (count : Nat) (cause : SyntaxCause) :
    limit count cause = if maxArguments ≤ count then reportHere cause else pure () := rfl

/-! ## Expressions -/

/-- An assignment, or an expression of the loosest level. -/
def expression (n : Nat) : Parser Expr := Parsing.expression n

/-- An expression of the first of the given levels. -/
def level (n : Nat) (ls : List Level) : Parser Expr := Parsing.level n ls

/-- The operators and right operands that follow on a level. -/
def chain (n : Nat) (l : Level) (tighter : List Level) (left : Expr) : Parser Expr :=
  Parsing.chain n l tighter left

/-- A chain of unary operators in front of a call. -/
def unary (n : Nat) : Parser Expr := Parsing.unary n

/-- The argument lists that follow a callee. -/
def calls (n : Nat) (callee : Expr) : Parser Expr := Parsing.calls n callee

/-- One or more arguments; `count` have been read before. -/
def arguments (n count : Nat) : Parser (List Expr) := Parsing.arguments n count

/-- The arguments of a call, which may have none. -/
def argumentList (n : Nat) : Parser (List Expr) := Parsing.listBefore .rightParen (arguments n 0)

/-- A literal, a variable or an expression in parentheses. -/
def primary (n : Nat) : Parser Expr := Parsing.primary n

theorem expression_succ (n : Nat) :
    expression (n + 1) = (do
      let left ← level n levels
      match ← take? .equal with
      | none => pure left
      | some equals =>
        let value ← expression n
        match left with
        | .read target => return .assign { target with id := ← newNode } value
        | _ =>
          report ⟨some equals, .assignmentTarget⟩
          pure left) := rfl

theorem level_nil (n : Nat) : level (n + 1) [] = unary n := rfl

theorem level_cons (n : Nat) (l : Level) (tighter : List Level) :
    level (n + 1) (l :: tighter) = (do
      let left ← level n tighter
      chain n l tighter left) := rfl

theorem chain_succ (n : Nat) (l : Level) (tighter : List Level) (left : Expr) :
    chain (n + 1) l tighter left = (do
      match ← takeAny? l.symbols with
      | none => pure left
      | some operator =>
        let right ← level n tighter
        let id ← newNode
        chain n l tighter (l.node id left operator right)) := rfl

theorem unary_succ (n : Nat) :
    unary (n + 1) = (do
      match ← takeAny? [.bang, .minus] with
      | some operator =>
        let right ← unary n
        return .unary (← newNode) operator right
      | none =>
        let callee ← primary n
        calls n callee) := rfl

theorem calls_succ (n : Nat) (callee : Expr) :
    calls (n + 1) callee = (do
      match ← take? .leftParen with
      | none => pure callee
      | some _ =>
        let args ← argumentList n
        let paren ← expect .rightParen .argumentsEnd
        let id ← newNode
        calls n (.call id callee args paren)) := rfl

theorem arguments_succ (n count : Nat) :
    arguments (n + 1) count = (do
      limit count .tooManyArguments
      let first ← expression n
      match ← take? .comma with
      | none => pure [first]
      | some _ => return first :: (← arguments n (count + 1))) := rfl

theorem primary_succ (n : Nat) :
    primary (n + 1) = (do
      match ← takeIf fun t => (literal? t).isSome with
      | some t => return .literal (← newNode) ((literal? t).getD .nil)
      | none =>
        match ← takeIf fun t => t.kind == .identifier with
        | some name => return .read { id := ← newNode, name }
        | none =>
          match ← take? .leftParen with
          | some _ =>
            let inner ← expression n
            let _ ← expect .rightParen .groupEnd
            return .group (← newNode) inner
          | none => fail .expression) := rfl

/-! ## Statements -/

/-- An expression up to its semicolon. -/
def terminated (n : Nat) (cause : SyntaxCause) : Parser Expr := Parsing.terminated n cause

/-- An expression, unless the symbol that would follow it stands in its place. -/
def expressionUnless (n : Nat) (stop : Symbol) : Parser (Option Expr) :=
  Parsing.expressionUnless n stop

/-- The initializer of a variable, which may have none. -/
def initialValue (n : Nat) : Parser (Option Expr) := Parsing.initialValue n

/-- The rest of a variable declaration. -/
def variableDecl (n : Nat) : Parser Stmt := Parsing.variableDecl n

/-- The parameters of a function; `count` have been read before. -/
def parameters (n count : Nat) : Parser (List Token) := Parsing.parameters n count

/-- The parameters of a function, which may have none. -/
def parameterList (n : Nat) : Parser (List Token) :=
  Parsing.listBefore .rightParen (parameters n 0)

/-- The first clause of a `^o^` loop. -/
def initializer (n : Nat) : Parser (Option Stmt) := Parsing.initializer n

/-- The condition of a loop; a missing one is true. -/
def conditionOr (condition : Option Expr) : Parser Expr := Parsing.conditionOr condition

/-- A declaration or a statement. -/
def declaration (n : Nat) : Parser Stmt := Parsing.declaration n

/-- The rest of a function declaration. -/
def functionDecl (n : Nat) : Parser Stmt := Parsing.functionDecl n

/-- A statement, chosen by its first token. -/
def statement (n : Nat) : Parser Stmt := Parsing.statement n

/-- The rest of a `^o^` loop. -/
def forLoop (n : Nat) : Parser Stmt := Parsing.forLoop n

/-- The rest of a conditional. -/
def branch (n : Nat) : Parser Stmt := Parsing.branch n

/-- The rest of a `^w^` loop. -/
def whileLoop (n : Nat) : Parser Stmt := Parsing.whileLoop n

/-- The declarations of a block and its closing symbol. -/
def block (n : Nat) : Parser (List Stmt) := Parsing.block n

theorem terminated_eq (n : Nat) (cause : SyntaxCause) :
    terminated n cause = (do
      let e ← expression n
      let _ ← expect .semicolon cause
      pure e) := rfl

theorem variableDecl_eq (n : Nat) :
    variableDecl n = (do
      let name ← expectName .variableName
      let init ← initialValue n
      let _ ← expect .semicolon .variableEnd
      return .var name init) := rfl

theorem parameters_succ (n count : Nat) :
    parameters (n + 1) count = (do
      limit count .tooManyParameters
      let first ← expectName .parameterName
      match ← take? .comma with
      | none => pure [first]
      | some _ => return first :: (← parameters n (count + 1))) := rfl

theorem declaration_succ (n : Nat) :
    declaration (n + 1) = (do
      match ← take? .function with
      | some _ => functionDecl n
      | none =>
        match ← take? .var with
        | some _ => variableDecl n
        | none => statement n) := rfl

theorem functionDecl_succ (n : Nat) :
    functionDecl (n + 1) = (do
      let name ← expectName .functionName
      let _ ← expect .leftParen .functionParen
      let params ← parameterList n
      let _ ← expect .rightParen .parametersEnd
      let _ ← expect .blockStart .functionBody
      let body ← block n
      return .function (← newFunction) name params body) := rfl

/-- The statement that the given token starts. -/
def statementFrom (n : Nat) (t : Token) : Parser Stmt :=
  match t.symbol? with
  | some .forLoop => forLoop n
  | some .ifThen => branch n
  | some .print => return .print (← terminated n .printEnd)
  | some .ret => do
    let value ← expressionUnless n .semicolon
    let _ ← expect .semicolon .returnEnd
    return .ret t value
  | some .whileLoop => whileLoop n
  | _ => return .block (← block n)

theorem statement_succ (n : Nat) :
    statement (n + 1) = (do
      match ← takeAny? [.forLoop, .ifThen, .print, .ret, .whileLoop, .blockStart] with
      | none => return .expression (← terminated n .expressionEnd)
      | some t => statementFrom n t) := rfl

/-- What holds of each kind of statement holds of the one that a token starts. -/
theorem statementFrom_cases {motive : Parser Stmt → Prop} (n : Nat) (t : Token)
    (forLoop : motive (forLoop n)) (branch : motive (branch n))
    (print : motive (do return .print (← terminated n .printEnd)))
    (ret : motive (do
      let value ← expressionUnless n .semicolon
      let _ ← expect .semicolon .returnEnd
      return .ret t value))
    (whileLoop : motive (whileLoop n)) (block : motive (do return .block (← block n))) :
    motive (statementFrom n t) := by
  unfold statementFrom
  split <;> assumption

theorem forLoop_succ (n : Nat) :
    forLoop (n + 1) = (do
      let _ ← expect .leftParen .forParen
      let init ← initializer n
      let condition ← expressionUnless n .semicolon
      let _ ← expect .semicolon .forCondition
      let increment ← expressionUnless n .rightParen
      let _ ← expect .rightParen .forClauses
      let body ← statement n
      let condition ← conditionOr condition
      return withInitializer (.loop condition (withIncrement body increment)) init) := rfl

theorem branch_succ (n : Nat) :
    branch (n + 1) = (do
      let _ ← expect .leftParen .ifParen
      let condition ← expression n
      let _ ← expect .rightParen .ifCondition
      let thenBranch ← statement n
      match ← take? .ifElse with
      | none => return .branch condition thenBranch none
      | some _ => return .branch condition thenBranch (some (← statement n))) := rfl

theorem whileLoop_succ (n : Nat) :
    whileLoop (n + 1) = (do
      let _ ← expect .leftParen .whileParen
      let condition ← expression n
      let _ ← expect .rightParen .whileCondition
      return .loop condition (← statement n)) := rfl

theorem block_succ (n : Nat) :
    block (n + 1) = (do
      match ← peek? with
      | none => fail .blockEnd
      | some t =>
        if t.isSymbol .blockEnd then
          let _ ← expect .blockEnd .blockEnd
          pure []
        else
          let first ← recovering (declaration n)
          let others ← block n
          return first.toList ++ others) := rfl

theorem declarations_succ (n : Nat) :
    declarations (n + 1) = (do
      match ← peek? with
      | none => pure []
      | some _ =>
        let first ← recovering (declaration n)
        return first :: (← declarations n)) := rfl

end Nya.Parse
