import Mathlib.Data.List.Forall2
import Nya.Tree.Basic

/-!
# Trees that differ in their references

Two expressions are alike if they differ in their references only, and these are related in some
way. What statements that are alike consist of is said for one layer: which scopes a statement
opens, and what becomes of the names it declares, differs from one relation to another.
-/

namespace Nya

/-- The expressions differ in their references only, and these are related. -/
inductive Expr.Like (R : Reference → Reference → Prop) : Expr → Expr → Prop
  | literal (id : Nat) (value : Literal) : Like R (.literal id value) (.literal id value)
  | read {target target' : Reference} (h : R target target') :
    Like R (.read target) (.read target')
  | assign {target target' : Reference} {value value' : Expr} (h : R target target')
    (hvalue : Like R value value') : Like R (.assign target value) (.assign target' value')
  | unary {right right' : Expr} (id : Nat) (operator : Token) (h : Like R right right') :
    Like R (.unary id operator right) (.unary id operator right')
  | binary {left left' right right' : Expr} (id : Nat) (operator : Token)
    (hleft : Like R left left') (hright : Like R right right') :
    Like R (.binary id left operator right) (.binary id left' operator right')
  | logical {left left' right right' : Expr} (id : Nat) (operator : Token)
    (hleft : Like R left left') (hright : Like R right right') :
    Like R (.logical id left operator right) (.logical id left' operator right')
  | group {inner inner' : Expr} (id : Nat) (h : Like R inner inner') :
    Like R (.group id inner) (.group id inner')
  | call {callee callee' : Expr} {arguments arguments' : List Expr} (id : Nat) (paren : Token)
    (hcallee : Like R callee callee') (harguments : List.Forall₂ (Like R) arguments arguments') :
    Like R (.call id callee arguments paren) (.call id callee' arguments' paren)

/--
The statements are of one kind, and their parts are related: the expressions by `E`, the statements
by `S`, the names of variables by `N`, the bodies of blocks by `B` and the functions by `D`.
-/
inductive Stmt.Layer (E : Expr → Expr → Prop) (S : Stmt → Stmt → Prop) (N : Token → Token → Prop)
    (B : List Stmt → List Stmt → Prop) (D : Declaration → Declaration → Prop) : Stmt → Stmt → Prop
  | expression {e e' : Expr} (h : E e e') : Layer E S N B D (.expression e) (.expression e')
  | print {e e' : Expr} (h : E e e') : Layer E S N B D (.print e) (.print e')
  | var {name name' : Token} {init init' : Option Expr} (hname : N name name')
    (h : Option.Rel E init init') : Layer E S N B D (.var name init) (.var name' init')
  | block {body body' : List Stmt} (h : B body body') : Layer E S N B D (.block body) (.block body')
  | branch {condition condition' : Expr} {thenBranch thenBranch' : Stmt}
    {elseBranch elseBranch' : Option Stmt} (hcondition : E condition condition')
    (hthen : S thenBranch thenBranch') (helse : Option.Rel S elseBranch elseBranch') :
    Layer E S N B D (.branch condition thenBranch elseBranch)
      (.branch condition' thenBranch' elseBranch')
  | loop {condition condition' : Expr} {body body' : Stmt} (hcondition : E condition condition')
    (hbody : S body body') : Layer E S N B D (.loop condition body) (.loop condition' body')
  | function (d d' : Declaration) (h : D d d') :
    Layer E S N B D (.function d.id d.name d.params d.body)
      (.function d'.id d'.name d'.params d'.body)
  | ret {value value' : Option Expr} (keyword : Token) (h : Option.Rel E value value') :
    Layer E S N B D (.ret keyword value) (.ret keyword value')

end Nya
