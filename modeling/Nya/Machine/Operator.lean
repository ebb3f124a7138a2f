import Nya.Env.Basic

/-!
# Faults at run time, and operators

Every fault has the line of the token that caused it: an operator, a name, or the parenthesis that
closes a call.
-/

namespace Nya

/-! ## Faults -/

/-- What goes wrong while a program runs. -/
inductive RuntimeCause where
  | undefined (name : String)
  | notNumber (operator : String)
  | notNumbers (operator : String)
  | notAddable (operator : String)
  | invalidUnary
  | invalidBinary
  | notCallable
  | wrongArity (expected got : Nat)
  | stackOverflow
  | native (message : String)
  deriving DecidableEq, Repr

/-- The wording of a fault. -/
def RuntimeCause.message : RuntimeCause → String
  | undefined name => "Undefined variable '" ++ name ++ "'."
  | notNumber operator => "Operand of '" ++ operator ++ "' must be a number."
  | notNumbers operator => "Operands of '" ++ operator ++ "' must be numbers."
  | notAddable operator =>
    "Operands of '" ++ operator ++ "' must be numbers, or one must be a string."
  | invalidUnary => "Invalid unary operator."
  | invalidBinary => "Invalid binary operator."
  | notCallable => "Can only call functions."
  | wrongArity expected got =>
    "Expected " ++ Number.digitsOf expected ++ " arguments but got " ++ Number.digitsOf got ++ "."
  | stackOverflow => "Stack overflow."
  | native message => message

/-- A fault at run time, with its line. -/
structure RuntimeError where
  line : Nat
  cause : RuntimeCause
  deriving DecidableEq, Repr

namespace RuntimeError

/-- The report of a fault. -/
def message (e : RuntimeError) : String :=
  "[line " ++ Number.digitsOf e.line ++ "] " ++ e.cause.message

/-- The fault caused by a token. -/
def ofToken (token : Token) (cause : RuntimeCause) : RuntimeError := ⟨token.line, cause⟩

/-- The fault of using a name that is bound nowhere. -/
def undefined (name : Token) : RuntimeError := .ofToken name (.undefined name.lexeme)

end RuntimeError

/-! ## Operators -/

/-- Applies a unary operator. -/
def applyUnary (operator : Token) (right : Value) : Except RuntimeError Value :=
  match operator.symbol? with
  | some .bang => .ok (.boolean !right.isTruthy)
  | some .minus =>
    match right with
    | .number x => .ok (.number (-x))
    | _ => .error (.ofToken operator (.notNumber operator.lexeme))
  | _ => .error (.ofToken operator .invalidUnary)

/-- Adds two numbers, or joins two texts if either value is a string. -/
def add (operator : Token) : Value → Value → Except RuntimeError Value
  | .number x, .number y => .ok (.number (x + y))
  | .string x, right => .ok (.string (x ++ right.text))
  | left, .string y => .ok (.string (left.text ++ y))
  | _, _ => .error (.ofToken operator (.notAddable operator.lexeme))

/-- Applies an operator on numbers. -/
def arithmetic (operator : Token) (x y : Float) : Except RuntimeError Value :=
  match operator.symbol? with
  | some .minus => .ok (.number (x - y))
  | some .star => .ok (.number (x * y))
  | some .slash => .ok (.number (x / y))
  | some .percent => .ok (.number (Number.remainder x y))
  | some .greater => .ok (.boolean (x > y))
  | some .greaterEqual => .ok (.boolean (x ≥ y))
  | some .less => .ok (.boolean (x < y))
  | some .lessEqual => .ok (.boolean (x ≤ y))
  | _ => .error (.ofToken operator .invalidBinary)

/-- Applies a binary operator to two values. -/
def applyBinary (operator : Token) (left right : Value) : Except RuntimeError Value :=
  match operator.symbol? with
  | some .equalEqual => .ok (.boolean (left.equals right))
  | some .bangEqual => .ok (.boolean !left.equals right)
  | some .plus => add operator left right
  | _ =>
    match left, right with
    | .number x, .number y => arithmetic operator x y
    | _, _ => .error (.ofToken operator (.notNumbers operator.lexeme))

/-- Whether the left operand of a logical operator settles its value. -/
def settles (operator : Token) (left : Value) : Bool :=
  if operator.isSymbol .or then left.isTruthy else !left.isTruthy

end Nya
