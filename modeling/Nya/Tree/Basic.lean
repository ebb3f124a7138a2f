import Nya.Token.Basic

/-!
# Syntax trees

Expressions and statements. Every expression node has a number, given out in the order in which the
nodes are built; every function declaration has a number of its own, by which two declarations of
the same text are told apart.

A reference to a variable also has room for its depth: how many scopes lie between the reference
and the declaration. It is filled in by resolution, and a reference without a depth means a global.
-/

namespace Nya

/-- The value a literal stands for. -/
inductive Literal where
  | number (value : Float)
  | string (text : String)
  | boolean (value : Bool)
  | nil
  deriving DecidableEq, Repr, Inhabited

/-- A variable named in an expression. -/
structure Reference where
  id : Nat
  name : Token
  depth : Option Nat := none
  deriving DecidableEq, Repr, Inhabited

/-- Expressions. Operators and the closing parenthesis of a call are kept as tokens. -/
inductive Expr where
  | literal (id : Nat) (value : Literal)
  | read (target : Reference)
  | assign (target : Reference) (value : Expr)
  | unary (id : Nat) (operator : Token) (right : Expr)
  | binary (id : Nat) (left : Expr) (operator : Token) (right : Expr)
  | logical (id : Nat) (left : Expr) (operator : Token) (right : Expr)
  | group (id : Nat) (inner : Expr)
  | call (id : Nat) (callee : Expr) (arguments : List Expr) (paren : Token)
  deriving Repr, Inhabited

/-- Statements. -/
inductive Stmt where
  | expression (e : Expr)
  | print (e : Expr)
  | var (name : Token) (init : Option Expr)
  | block (body : List Stmt)
  | branch (condition : Expr) (thenBranch : Stmt) (elseBranch : Option Stmt)
  | loop (condition : Expr) (body : Stmt)
  | function (id : Nat) (name : Token) (params : List Token) (body : List Stmt)
  | ret (keyword : Token) (value : Option Expr)
  deriving Repr, Inhabited

/-- A function declaration on its own. -/
structure Declaration where
  id : Nat
  name : Token
  params : List Token
  body : List Stmt
  deriving Repr, Inhabited

/-! ## References of a tree -/

/-- Whether a reference reads its variable or writes it. -/
inductive Access where
  | read
  | write
  deriving DecidableEq, Repr

mutual

/-- The references of an expression, inner ones first. -/
def Expr.references : Expr → List (Access × Reference)
  | .literal _ _ => []
  | .read target => [(.read, target)]
  | .assign target value => value.references ++ [(.write, target)]
  | .unary _ _ right => right.references
  | .binary _ left _ right | .logical _ left _ right => left.references ++ right.references
  | .group _ inner => inner.references
  | .call _ callee arguments _ => callee.references ++ Expr.referencesAll arguments

/-- The references of a list of expressions. -/
def Expr.referencesAll : List Expr → List (Access × Reference)
  | [] => []
  | e :: es => e.references ++ Expr.referencesAll es

end

/-- The references of an expression that may be missing. -/
def Expr.referencesOption : Option Expr → List (Access × Reference)
  | none => []
  | some e => e.references

mutual

/-- The references of a statement. -/
def Stmt.references : Stmt → List (Access × Reference)
  | .expression e | .print e => e.references
  | .var _ init => Expr.referencesOption init
  | .block body => Stmt.referencesAll body
  | .branch condition thenBranch none => condition.references ++ thenBranch.references
  | .branch condition thenBranch (some elseBranch) =>
    condition.references ++ thenBranch.references ++ elseBranch.references
  | .loop condition body => condition.references ++ body.references
  | .function _ _ _ body => Stmt.referencesAll body
  | .ret _ value => Expr.referencesOption value

/-- The references of a list of statements. -/
def Stmt.referencesAll : List Stmt → List (Access × Reference)
  | [] => []
  | s :: ss => s.references ++ Stmt.referencesAll ss

end

end Nya
