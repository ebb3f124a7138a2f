import Nya.Parse.Basic

/-!
# Parsing expressions

An expression is an assignment or a tower of levels of binary operators, the loosest first; below
the last level stand unary operators, calls and primary expressions. Each level is left
associative, assignment is right associative.

The clauses call each other without taking a token in between, so every call spends one unit of
fuel. Between two tokens the calls go down the levels once, and `Parse.fuelFor` has room for that.
-/

namespace Nya

namespace Parse

/-! ## Levels -/

/-- A level of binary operators. The operands of a logical one may be left unevaluated. -/
structure Level where
  symbols : List Symbol
  isLogical : Bool := false

/-- The levels of binary operators, the loosest first. -/
def levels : List Level :=
  [ { symbols := [.or], isLogical := true },
    { symbols := [.and], isLogical := true },
    { symbols := [.bangEqual, .equalEqual] },
    { symbols := [.greater, .greaterEqual, .less, .lessEqual] },
    { symbols := [.percent] },
    { symbols := [.minus, .plus] },
    { symbols := [.slash, .star] } ]

/-- The node that joins two operands on a level. -/
def Level.node (l : Level) (id : Nat) (left : Expr) (operator : Token) (right : Expr) : Expr :=
  if l.isLogical then .logical id left operator right else .binary id left operator right

/-- The most arguments of a call, and the most parameters of a function. -/
def maxArguments : Nat := 255

/-- The value of a token that is a literal. The names of types stand for their own text. -/
def literal? (t : Token) : Option Literal :=
  match t.kind with
  | .number value => some (.number value)
  | .string text => some (.string text)
  | .symbol .yes => some (.boolean true)
  | .symbol .no => some (.boolean false)
  | .symbol .nil => some .nil
  | .symbol .typeNumber | .symbol .typeString | .symbol .typeBoolean => some (.string t.lexeme)
  | _ => none

end Parse

namespace Parsing

open Parse (Level levels maxArguments literal?)

variable {m : Type → Type} [Parsing m]

/-- Records a fault if as many items have been read as there may be. -/
def limit (count : Nat) (cause : SyntaxCause) : m Unit :=
  if maxArguments ≤ count then reportHere cause else pure ()

/-! ## The grammar -/

mutual

/-- An assignment, or an expression of the loosest level. -/
def expression : Nat → m Expr
  | 0 => outOfFuel
  | n + 1 => do
    let left ← level n levels
    match ← take? .equal with
    | none => pure left
    | some equals =>
      let value ← expression n
      match left with
      | .read target => build fun id => .assign { target with id } value
      | _ =>
        report equals .assignmentTarget
        pure left

/-- An expression of the first of the given levels. -/
def level : Nat → List Level → m Expr
  | 0, _ => outOfFuel
  | n + 1, [] => unary n
  | n + 1, l :: tighter => do
    let left ← level n tighter
    chain n l tighter left

/-- The operators and right operands that follow on a level. -/
def chain : Nat → Level → List Level → Expr → m Expr
  | 0, _, _, _ => outOfFuel
  | n + 1, l, tighter, left => do
    match ← takeAny? l.symbols with
    | none => pure left
    | some operator =>
      let right ← level n tighter
      let joined ← build fun id => l.node id left operator right
      chain n l tighter joined

/-- A chain of unary operators in front of a call. -/
def unary : Nat → m Expr
  | 0 => outOfFuel
  | n + 1 => do
    match ← takeAny? [.bang, .minus] with
    | some operator =>
      let right ← unary n
      build fun id => .unary id operator right
    | none =>
      let callee ← primary n
      calls n callee

/-- The argument lists that follow a callee. -/
def calls : Nat → Expr → m Expr
  | 0, _ => outOfFuel
  | n + 1, callee => do
    match ← take? .leftParen with
    | none => pure callee
    | some _ =>
      let args ← listBefore .rightParen (arguments n 0)
      let paren ← expect .rightParen .argumentsEnd
      let call ← build fun id => .call id callee args paren
      calls n call

/-- One or more arguments; `count` have been read before. -/
def arguments : Nat → Nat → m (List Expr)
  | 0, _ => outOfFuel
  | n + 1, count => do
    limit count .tooManyArguments
    let first ← expression n
    match ← take? .comma with
    | none => pure [first]
    | some _ => return first :: (← arguments n (count + 1))

/-- A literal, a variable or an expression in parentheses. -/
def primary : Nat → m Expr
  | 0 => outOfFuel
  | n + 1 => do
    match ← takeIf fun t => (literal? t).isSome with
    | some t => build fun id => .literal id ((literal? t).getD .nil)
    | none =>
      match ← takeIf fun t => t.kind == .identifier with
      | some name => build fun id => .read { id, name }
      | none =>
        match ← take? .leftParen with
        | some _ =>
          let inner ← expression n
          let _ ← expect .rightParen .groupEnd
          build fun id => .group id inner
        | none => fail .expression

end

end Parsing

end Nya
