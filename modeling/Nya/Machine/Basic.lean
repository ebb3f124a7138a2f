import Nya.Machine.Operator
import Nya.Native.Basic

/-!
# Configurations of the machine

A program is run by a machine whose configuration says what it is about to do, what is left to do
afterwards, and the state of the world. Nothing of a run is kept outside of the configuration, so a
run may nest calls as deep as the limit allows.

An expression is always evaluated for the sake of a statement: its context is the list of the
expressions around it, the innermost first, and the purpose that the statement has for the value.
What is left to do after a statement is a stack of tasks. Two kinds of task give something back
when they are left, whatever the way: a block its environment, and a call its environment and its
place in the count of calls.
-/

namespace Nya.Machine

/-! ## Contexts -/

/-- An expression around the one being evaluated. -/
inductive Hole where
  | assign (target : Reference)
  | unary (operator : Token)
  | binaryLeft (operator : Token) (right : Expr)
  | binaryRight (left : Value) (operator : Token)
  | logical (operator : Token) (right : Expr)
  | callee (arguments : List Expr) (paren : Token)
  /-- The arguments before this one are values already, the latest first. -/
  | argument (callee : Value) (done : List Value) (rest : List Expr) (paren : Token)

/-- What a statement does with the value of its expression. -/
inductive Purpose where
  | discard
  | print
  | define (name : Token)
  | choose (thenBranch : Stmt) (elseBranch : Option Stmt)
  | iterate (condition : Expr) (body : Stmt)
  | ret

/-- What is left of the statement whose expression is being evaluated. -/
structure Context where
  holes : List Hole := []
  purpose : Purpose

/-- Puts an expression around the one being evaluated. -/
def Context.push (c : Context) (h : Hole) : Context := { c with holes := h :: c.holes }

/-- What is left to do after a statement. -/
inductive Task where
  /-- The statements that follow in the same sequence. -/
  | sequence (rest : List Stmt)
  /-- Another round of a loop. -/
  | again (condition : Expr) (body : Stmt)
  /-- Leaving a block: back to the environment before it. -/
  | leave (env : Env)
  /-- Leaving a call: back to the environment of the caller and to its expression. -/
  | back (env : Env) (caller : Context)

/-! ## Configurations -/

/-- How a statement ends: it completes, or a return is on its way to the call around it. -/
inductive Flow where
  | completed
  | returning (v : Value)

/-- The value of a call whose body ended in the given way. -/
def Flow.result : Flow → Value
  | completed => .nil
  | returning v => v

/-- What the machine is about to do. -/
inductive Focus where
  | eval (e : Expr) (context : Context)
  | give (v : Value) (context : Context)
  | exec (s : Stmt)
  | execAll (ss : List Stmt)
  | finish (flow : Flow)
  | raise (error : RuntimeError)

/-- What a running program changes. -/
structure World where
  store : Store
  /-- The current environment. -/
  env : Env
  /-- The number of calls in progress. -/
  calls : Nat
  console : Console

/-- A configuration. -/
structure Config where
  focus : Focus
  stack : List Task
  world : World

end Nya.Machine
