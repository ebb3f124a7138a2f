import Nya.Text.Utf8

/-!
# The console

What a running program sees of the outside: what it has written so far, the bytes of its input that
it has not read yet, and the time.
-/

namespace Nya

/-- A piece of output: a whole line, or a prompt that stays on its line. -/
inductive Emission where
  | line (text : String)
  | prompt (text : String)
  deriving DecidableEq, Repr

/-- The text of a piece of output. -/
def Emission.text : Emission → String
  | line text => text ++ "\n"
  | prompt text => text

/-- The state of the console. -/
structure Console where
  /-- What was written, the latest first. -/
  written : List Emission := []
  /-- The bytes not read yet. -/
  input : List UInt8 := []
  /-- Nanoseconds since the start of 1970. -/
  now : Nat := 0
  deriving DecidableEq, Repr, Inhabited

/-- What reading a line of input yields. -/
inductive InputLine where
  | text (line : String)
  | invalid
  | endOfInput
  deriving DecidableEq, Repr

namespace Console

/-- Writes a piece of output. -/
def write (c : Console) (e : Emission) : Console := { c with written := e :: c.written }

/-- Writes a line. -/
def print (c : Console) (text : String) : Console := c.write (.line text)

/-- What was written, in order. -/
def output (c : Console) : List Emission := c.written.reverse

/-- The lines that were written, in order, without the prompts. -/
def lines (c : Console) : List String :=
  c.output.filterMap fun
    | .line text => some text
    | .prompt _ => none

/-- All that was written, as one text. -/
def transcript (c : Console) : String := String.join (c.output.map Emission.text)

/-- The bytes up to the first newline and the newline itself, and the bytes after it. -/
def cutLine : List UInt8 → List UInt8 × List UInt8
  | [] => ([], [])
  | b :: rest =>
    if b = 0x0a then ([b], rest)
    else
      let (line, after) := cutLine rest
      (b :: line, after)

/-- Reads a line of input with its newline. Bytes that are no text are read all the same. -/
def readLine (c : Console) : InputLine × Console :=
  match cutLine c.input with
  | ([], _) => (.endOfInput, c)
  | (line, rest) =>
    match Utf8.decode line with
    | .ok text => (.text text, { c with input := rest })
    | .error _ => (.invalid, { c with input := rest })

end Console

/-- What is said about input that is no text. -/
def invalidInputMessage : String := "stream did not contain valid UTF-8"

end Nya
