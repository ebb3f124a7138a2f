import Nya.Tree.Basic

/-!
# Environments and values

At run time the variables of a scope live in a frame, and an environment is the chain of frames
that a piece of program sees: its own frame first, the frame of the globals last. A chain never
changes; what the frames hold is kept in a store.

A function is a declaration together with the chain in which it was declared. Two functions are the
same if the declaration and the frame are.
-/

namespace Nya

/-- The number of a frame in the store. -/
abbrev FrameId := Nat

/-- A chain of frames, the innermost first. It is never empty. -/
inductive Env where
  | root (frame : FrameId)
  | child (frame : FrameId) (outer : Env)
  deriving DecidableEq, Repr, Inhabited

namespace Env

/-- The innermost frame. -/
def frame : Env → FrameId
  | root frame => frame
  | child frame _ => frame

/-- The chain that is left after going out by some frames. It stops at the last frame. -/
def ancestor : Env → Nat → Env
  | env, 0 => env
  | root frame, _ + 1 => root frame
  | child _ outer, n + 1 => outer.ancestor n

/-- The frames of a chain, the innermost first. -/
def frames : Env → List FrameId
  | root frame => [frame]
  | child frame outer => frame :: outer.frames

end Env

/-- A function of the host, known by its number. -/
structure NativeRef where
  id : Nat
  name : String
  arity : Nat
  deriving DecidableEq, Repr, Inhabited

/-- What an expression evaluates to. -/
inductive Value where
  | number (value : Float)
  | string (text : String)
  | boolean (value : Bool)
  | nil
  | closure (declaration : Declaration) (env : Env)
  | native (function : NativeRef)
  deriving Repr, Inhabited

namespace Value

/-- `nuww` and `fawse` are false, everything else is true. -/
def isTruthy : Value → Bool
  | nil => false
  | boolean value => value
  | _ => true

/-- The name of the type of a value. -/
def typeName : Value → String
  | number _ => "Numbew"
  | string _ => "Stwing"
  | boolean _ => "Boowean"
  | nil => "nuww"
  | closure _ _ | native _ => "Function"

/-- The text of a value. -/
def text : Value → String
  | number value => Number.text value
  | string text => text
  | boolean true => "twue"
  | boolean false => "fawse"
  | nil => "nuww"
  | closure declaration _ => "<fn " ++ declaration.name.lexeme ++ ">"
  | native function => "<native fn " ++ function.name ++ ">"

/--
Equality in the language. All NaNs are equal, the two zeros are equal, and functions are equal if
they are the same function.
-/
def equals : Value → Value → Bool
  | number x, number y => x == y || (Number.isNaN x && Number.isNaN y)
  | string x, string y => x == y
  | boolean x, boolean y => x == y
  | nil, nil => true
  | closure d env, closure d' env' => d.id == d'.id && env.frame == env'.frame
  | native f, native g => f.id == g.id
  | _, _ => false

end Value

/-- The value of a literal. -/
def Literal.toValue : Literal → Value
  | number value => .number value
  | string text => .string text
  | boolean value => .boolean value
  | nil => .nil

end Nya
