import Nya.Console
import Nya.Env.Store
import Nya.Text.Uwu

/-!
# Functions of the host

A native function gets the values of the globals, its arguments and the console; it yields a value
or a message, and the console as it leaves it. It cannot change a variable.
-/

namespace Nya

/-- The value of each global, as natives see it. -/
abbrev Globals := String → Option Value

/-- A function of the host. It is called with as many arguments as its arity says. -/
structure Native where
  name : String
  arity : Nat
  run : Globals → List Value → Console → Except String Value × Console

namespace Native

/-- A native that depends on its arguments alone. -/
def pure (name : String) (arity : Nat) (f : List Value → Except String Value) : Native :=
  ⟨name, arity, fun _ args console => (f args, console)⟩

/-! ## The standard natives -/

/-- The seconds since the start of 1970, to the millisecond. -/
def clock : Native :=
  ⟨"clock", 0, fun _ _ console =>
    (.ok (.number (Float.ofNat (console.now / 1000000) / 1000.0)), console)⟩

/-- The name of the type of a value. -/
def typeOf : Native :=
  .pure "typeof" 1 fun args => .ok (.string ((args.head?.map Value.typeName).getD "nuww"))

/-- A value as cute text. -/
def uwuify : Native :=
  .pure "uwuify" 1 fun args => .ok (.string (Text.uwu ((args.head?.map Value.text).getD "")))

/-- The faces that `emoticon` picks from. -/
def faces : List String := [":3", "c:", "^^", "UwU", "OwO", "^~^"]

/-- A blank and a face, picked by the nanoseconds of the clock. -/
def emoticon : Native :=
  ⟨"emoticon", 0, fun _ _ console =>
    let pick := console.now % 1000000000 % faces.length
    (.ok (.string (" " ++ faces.getD pick "")), console)⟩

/-- The natives that every program has. -/
def standard : List Native := [clock, typeOf, uwuify, emoticon]

/-! ## Input -/

/-- Drops the line ends that a text ends with. -/
def trimLineEnd (line : String) : String :=
  String.ofList ((line.toList.reverse.dropWhile fun c => c == '\r' || c == '\n').reverse)

/-- Shows a prompt, unless it is `nuww`, and reads a line. At the end of the input it is `nuww`. -/
def input : Native :=
  ⟨"inpwut", 1, fun _ args console =>
    let prompted := match args.head? with
      | none | some .nil => console
      | some prompt => console.write (.prompt prompt.text)
    match prompted.readLine with
    | (.text line, console) => (.ok (.string (trimLineEnd line)), console)
    | (.invalid, console) => (.error invalidInputMessage, console)
    | (.endOfInput, console) => (.ok .nil, console)⟩

end Native

end Nya
