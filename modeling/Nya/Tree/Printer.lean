import Nya.Tree.Basic

/-!
# Printed trees

A tree is printed in brackets, the operator first: `(+.+ 1 (+.* 2 3))`. Strings keep their quotes
but nothing in them is escaped.
-/

namespace Nya

/-- Puts brackets around parts separated by blanks. -/
def bracketed (parts : List String) : String := "(" ++ " ".intercalate parts ++ ")"

/-- A printed literal. -/
def Literal.printed : Literal → String
  | .number value => Number.plain value
  | .string text => "\"" ++ text ++ "\""
  | .boolean true => "twue"
  | .boolean false => "fawse"
  | .nil => "nuww"

mutual

/-- A printed expression. -/
def Expr.printed : Expr → String
  | .literal _ value => value.printed
  | .read target => target.name.lexeme
  | .assign target value => bracketed ["o/", target.name.lexeme, value.printed]
  | .unary _ operator right => bracketed [operator.lexeme, right.printed]
  | .binary _ left operator right | .logical _ left operator right =>
    bracketed [operator.lexeme, left.printed, right.printed]
  | .group _ inner => bracketed ["group", inner.printed]
  | .call _ callee arguments _ => bracketed ("call" :: callee.printed :: Expr.printedAll arguments)

/-- Printed expressions, one by one. -/
def Expr.printedAll : List Expr → List String
  | [] => []
  | e :: es => e.printed :: Expr.printedAll es

end

mutual

/-- A printed statement. -/
def Stmt.printed : Stmt → String
  | .expression e => bracketed [";", e.printed]
  | .print e => bracketed ["pwint", e.printed]
  | .var name none => bracketed [">.<", name.lexeme]
  | .var name (some init) => bracketed [">.<", name.lexeme, init.printed]
  | .block body => bracketed ("block" :: Stmt.printedAll body)
  | .branch condition thenBranch none => bracketed ["^u^", condition.printed, thenBranch.printed]
  | .branch condition thenBranch (some elseBranch) =>
    bracketed ["^u^", condition.printed, thenBranch.printed, elseBranch.printed]
  | .loop condition body => bracketed ["^w^", condition.printed, body.printed]
  | .function _ name params body =>
    bracketed (":D" :: name.lexeme :: bracketed (params.map Token.lexeme) :: Stmt.printedAll body)
  | .ret _ none => bracketed ["c:"]
  | .ret _ (some value) => bracketed ["c:", value.printed]

/-- Printed statements, one by one. -/
def Stmt.printedAll : List Stmt → List String
  | [] => []
  | s :: ss => s.printed :: Stmt.printedAll ss

end

end Nya
