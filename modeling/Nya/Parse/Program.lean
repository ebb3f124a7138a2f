import Nya.Parse.Expression

/-!
# Parsing statements and programs

A program is a list of declarations. A declaration with a fault is dropped, and reading goes on
behind it; so it is with declarations inside a block.

A `^o^` loop is a `^w^` loop with its initializer before and its increment after each round.
-/

namespace Nya

namespace Parse

/-- A loop body with the increment after it. -/
def withIncrement (body : Stmt) : Option Expr → Stmt
  | none => body
  | some increment => .block [body, .expression increment]

/-- A loop with the initializer before it. -/
def withInitializer (loop : Stmt) : Option Stmt → Stmt
  | none => loop
  | some init => .block [init, loop]

end Parse

namespace Parsing

open Parse (withIncrement withInitializer)

variable {m : Type → Type} [Parsing m]

/-! ## Statements -/

/-- An expression up to its semicolon. -/
def terminated (n : Nat) (cause : SyntaxCause) : m Expr := do
  let e ← expression n
  let _ ← expect .semicolon cause
  pure e

/-- An expression, unless the symbol that would follow it stands in its place. -/
def expressionUnless (n : Nat) (stop : Symbol) : m (Option Expr) := do
  if ← nextIs stop then pure none else return some (← expression n)

/-- The initializer of a variable, which may have none. -/
def initialValue (n : Nat) : m (Option Expr) := do
  match ← take? .equal with
  | some _ => return some (← expression n)
  | none => pure none

/-- The rest of a variable declaration. -/
def variableDecl (n : Nat) : m Stmt := do
  let name ← expectName .variableName
  let init ← initialValue n
  let _ ← expect .semicolon .variableEnd
  return .var name init

/-- The parameters of a function; `count` have been read before. -/
def parameters : Nat → Nat → m (List Token)
  | 0, _ => outOfFuel
  | n + 1, count => do
    limit count .tooManyParameters
    let first ← expectName .parameterName
    match ← take? .comma with
    | none => pure [first]
    | some _ => return first :: (← parameters n (count + 1))

/-- The first clause of a `^o^` loop. -/
def initializer (n : Nat) : m (Option Stmt) := do
  match ← take? .semicolon with
  | some _ => pure none
  | none =>
    match ← take? .var with
    | some _ => return some (← variableDecl n)
    | none => return some (.expression (← terminated n .expressionEnd))

/-- The condition of a loop; a missing one is true. -/
def conditionOr : Option Expr → m Expr
  | some condition => pure condition
  | none => build fun id => .literal id (.boolean true)

mutual

/-- A declaration or a statement. -/
def declaration : Nat → m Stmt
  | 0 => outOfFuel
  | n + 1 => do
    match ← take? .function with
    | some _ => functionDecl n
    | none =>
      match ← take? .var with
      | some _ => variableDecl n
      | none => statement n

/-- The rest of a function declaration. -/
def functionDecl : Nat → m Stmt
  | 0 => outOfFuel
  | n + 1 => do
    let name ← expectName .functionName
    let _ ← expect .leftParen .functionParen
    let params ← listBefore .rightParen (parameters n 0)
    let _ ← expect .rightParen .parametersEnd
    let _ ← expect .blockStart .functionBody
    let body ← block n
    return .function (← newFunction) name params body

/-- A statement, chosen by its first token. -/
def statement : Nat → m Stmt
  | 0 => outOfFuel
  | n + 1 => do
    match ← takeAny? [.forLoop, .ifThen, .print, .ret, .whileLoop, .blockStart] with
    | none => return .expression (← terminated n .expressionEnd)
    | some t =>
      match t.symbol? with
      | some .forLoop => forLoop n
      | some .ifThen => branch n
      | some .print => return .print (← terminated n .printEnd)
      | some .ret =>
        let value ← expressionUnless n .semicolon
        let _ ← expect .semicolon .returnEnd
        return .ret t value
      | some .whileLoop => whileLoop n
      | _ => return .block (← block n)

/-- The rest of a `^o^` loop. The node of a missing condition comes after those of the body. -/
def forLoop : Nat → m Stmt
  | 0 => outOfFuel
  | n + 1 => do
    let _ ← expect .leftParen .forParen
    let init ← initializer n
    let condition ← expressionUnless n .semicolon
    let _ ← expect .semicolon .forCondition
    let increment ← expressionUnless n .rightParen
    let _ ← expect .rightParen .forClauses
    let body ← statement n
    let condition ← conditionOr condition
    return withInitializer (.loop condition (withIncrement body increment)) init

/-- The rest of a conditional. -/
def branch : Nat → m Stmt
  | 0 => outOfFuel
  | n + 1 => do
    let _ ← expect .leftParen .ifParen
    let condition ← expression n
    let _ ← expect .rightParen .ifCondition
    let thenBranch ← statement n
    match ← take? .ifElse with
    | none => return .branch condition thenBranch none
    | some _ => return .branch condition thenBranch (some (← statement n))

/-- The rest of a `^w^` loop. -/
def whileLoop : Nat → m Stmt
  | 0 => outOfFuel
  | n + 1 => do
    let _ ← expect .leftParen .whileParen
    let condition ← expression n
    let _ ← expect .rightParen .whileCondition
    return .loop condition (← statement n)

/-- The declarations of a block and its closing symbol. -/
def block : Nat → m (List Stmt)
  | 0 => outOfFuel
  | n + 1 => do
    match ← peek? with
    | none => fail .blockEnd
    | some t =>
      if t.isSymbol .blockEnd then
        let _ ← expect .blockEnd .blockEnd
        pure []
      else
        let first ← declared (declaration n)
        let others ← block n
        return first.toList ++ others

end

/-! ## Programs -/

/-- The declarations up to the end of the input. -/
def declarations : Nat → m (List (Option Stmt))
  | 0 => outOfFuel
  | n + 1 => do
    match ← peek? with
    | none => pure []
    | some _ =>
      let first ← declared (declaration n)
      return first :: (← declarations n)

end Parsing

end Nya
