import Nya.Scope.Basic

/-!
# Resolution

Resolution fills in the depth of every reference and finds the faults that need no run: a name
declared twice in one scope, a variable read in its own initializer, a return outside of functions.
All faults are found; the tree is resolved whether there are any or not.

Three functions walk the tree in the same way: `after` says which scopes a statement leaves behind,
`resolve` gives the resolved tree and `scopeErrors` the faults, in source order. A block and a
function body open a scope of their own; the parameters of a function are in the scope of its body.
-/

namespace Nya

/-! ## Faults -/

/-- What resolution finds wrong. -/
inductive ScopeCause where
  | alreadyDeclared
  | ownInitializer
  | topLevelReturn
  deriving DecidableEq, Repr

/-- The wording of a fault. -/
def ScopeCause.message : ScopeCause → String
  | alreadyDeclared => "Already a variable with this name in this scope."
  | ownInitializer => "Can't read local variable in its own initializer."
  | topLevelReturn => "Can't return from top-level code."

/-- A fault, and the token at which it was found. -/
structure ScopeError where
  token : Token
  cause : ScopeCause
  deriving DecidableEq, Repr

/-- The report of a fault. -/
def ScopeError.message (e : ScopeError) : String :=
  "[line " ++ Number.digitsOf e.token.line ++ "] Error " ++ e.token.place ++ ": " ++ e.cause.message

/-- The fault of declaring a name, if the innermost scope has it already. -/
def Scopes.declareErrors (scopes : Scopes) (name : Token) : List ScopeError :=
  if scopes.hasInner name.lexeme then [⟨name, .alreadyDeclared⟩] else []

/-! ## Expressions -/

/-- A reference with the depth that the scopes give it. -/
def Reference.resolve (scopes : Scopes) (r : Reference) : Reference :=
  { r with depth := scopes.depth? r.name.lexeme }

mutual

/-- An expression with the depth of every reference filled in. -/
def Expr.resolve (scopes : Scopes) : Expr → Expr
  | .literal id value => .literal id value
  | .read target => .read (target.resolve scopes)
  | .assign target value => .assign (target.resolve scopes) (value.resolve scopes)
  | .unary id operator right => .unary id operator (right.resolve scopes)
  | .binary id left operator right =>
    .binary id (left.resolve scopes) operator (right.resolve scopes)
  | .logical id left operator right =>
    .logical id (left.resolve scopes) operator (right.resolve scopes)
  | .group id inner => .group id (inner.resolve scopes)
  | .call id callee arguments paren =>
    .call id (callee.resolve scopes) (Expr.resolveAll scopes arguments) paren

/-- Resolved expressions, one by one. -/
def Expr.resolveAll (scopes : Scopes) : List Expr → List Expr
  | [] => []
  | e :: es => e.resolve scopes :: Expr.resolveAll scopes es

end

mutual

/-- The faults of an expression. -/
def Expr.scopeErrors (scopes : Scopes) : Expr → List ScopeError
  | .literal _ _ => []
  | .read target =>
    if scopes.isPending target.name.lexeme then [⟨target.name, .ownInitializer⟩] else []
  | .assign _ value => value.scopeErrors scopes
  | .unary _ _ right => right.scopeErrors scopes
  | .binary _ left _ right | .logical _ left _ right =>
    left.scopeErrors scopes ++ right.scopeErrors scopes
  | .group _ inner => inner.scopeErrors scopes
  | .call _ callee arguments _ =>
    callee.scopeErrors scopes ++ Expr.scopeErrorsAll scopes arguments

/-- The faults of a list of expressions. -/
def Expr.scopeErrorsAll (scopes : Scopes) : List Expr → List ScopeError
  | [] => []
  | e :: es => e.scopeErrors scopes ++ Expr.scopeErrorsAll scopes es

end

/-- The faults of an expression that may be missing. -/
def Expr.scopeErrorsOption (scopes : Scopes) : Option Expr → List ScopeError
  | none => []
  | some e => e.scopeErrors scopes

/-! ## Statements -/

/-- The scopes that a statement leaves behind: only declarations change them. -/
def Stmt.after (scopes : Scopes) : Stmt → Scopes
  | .var name _ | .function _ name _ _ => scopes.introduce name.lexeme
  | .branch _ thenBranch none => thenBranch.after scopes
  | .branch _ thenBranch (some elseBranch) => elseBranch.after (thenBranch.after scopes)
  | .loop _ body => body.after scopes
  | .expression _ | .print _ | .block _ | .ret _ _ => scopes

/-- The scope of a function body before its first statement. -/
def parameterScope (scopes : Scopes) (params : List Token) : Scopes :=
  params.foldl (fun scopes param => scopes.introduce param.lexeme) ([] :: scopes)

/-- The faults of a list of parameters. -/
def parameterErrors (scopes : Scopes) : List Token → List ScopeError
  | [] => []
  | param :: params =>
    scopes.declareErrors param ++ parameterErrors (scopes.introduce param.lexeme) params

mutual

/-- A statement with the depth of every reference filled in. -/
def Stmt.resolve (scopes : Scopes) : Stmt → Stmt
  | .expression e => .expression (e.resolve scopes)
  | .print e => .print (e.resolve scopes)
  | .var name init => .var name (init.map (Expr.resolve (scopes.declare name.lexeme)))
  | .block body => .block (Stmt.resolveAll ([] :: scopes) body)
  | .branch condition thenBranch none =>
    .branch (condition.resolve scopes) (thenBranch.resolve scopes) none
  | .branch condition thenBranch (some elseBranch) =>
    .branch (condition.resolve scopes) (thenBranch.resolve scopes)
      (some (elseBranch.resolve (thenBranch.after scopes)))
  | .loop condition body => .loop (condition.resolve scopes) (body.resolve scopes)
  | .function id name params body =>
    .function id name params
      (Stmt.resolveAll (parameterScope (scopes.introduce name.lexeme) params) body)
  | .ret keyword value => .ret keyword (value.map (Expr.resolve scopes))

/-- Resolved statements; each one sees the declarations before it. -/
def Stmt.resolveAll (scopes : Scopes) : List Stmt → List Stmt
  | [] => []
  | s :: ss => s.resolve scopes :: Stmt.resolveAll (s.after scopes) ss

end

mutual

/-- The faults of a statement; `inFunction` says whether a function is around it. -/
def Stmt.scopeErrors (inFunction : Bool) (scopes : Scopes) : Stmt → List ScopeError
  | .expression e | .print e => e.scopeErrors scopes
  | .var name init =>
    scopes.declareErrors name ++ Expr.scopeErrorsOption (scopes.declare name.lexeme) init
  | .block body => Stmt.scopeErrorsAll inFunction ([] :: scopes) body
  | .branch condition thenBranch none =>
    condition.scopeErrors scopes ++ thenBranch.scopeErrors inFunction scopes
  | .branch condition thenBranch (some elseBranch) =>
    condition.scopeErrors scopes ++ thenBranch.scopeErrors inFunction scopes ++
      elseBranch.scopeErrors inFunction (thenBranch.after scopes)
  | .loop condition body => condition.scopeErrors scopes ++ body.scopeErrors inFunction scopes
  | .function _ name params body =>
    let around := scopes.introduce name.lexeme
    scopes.declareErrors name ++ parameterErrors ([] :: around) params ++
      Stmt.scopeErrorsAll true (parameterScope around params) body
  | .ret keyword value =>
    (if inFunction then [] else [⟨keyword, .topLevelReturn⟩]) ++
      Expr.scopeErrorsOption scopes value

/-- The faults of a list of statements. -/
def Stmt.scopeErrorsAll (inFunction : Bool) (scopes : Scopes) : List Stmt → List ScopeError
  | [] => []
  | s :: ss =>
    s.scopeErrors inFunction scopes ++ Stmt.scopeErrorsAll inFunction (s.after scopes) ss

end

/-! ## Programs -/

/-- A program with the depth of every reference filled in. -/
def resolve (program : List Stmt) : List Stmt := Stmt.resolveAll [] program

/-- The faults of a program. -/
def scopeErrors (program : List Stmt) : List ScopeError := Stmt.scopeErrorsAll false [] program

end Nya
