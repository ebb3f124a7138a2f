import Nya.Command.Host
import Std.Time.DateTime.Timestamp

/-!
# The program

The system as a host of commands. A session runs a program on a console that holds all of its
input; here the input comes as it is typed, so the steps of the machine are taken one by one, and a
line is fetched when a native is about to read one.
-/

namespace Nya.Program

/-! ## Input and output -/

/-- Nanoseconds since the start of 1970. -/
def currentTime : IO Nat := do
  return (← Std.Time.Timestamp.now).toNanosecondsSinceUnixEpoch.toInt.toNat

/-- Writes out what the console holds. -/
def flush (console : Console) : IO Console := do
  if console.written.isEmpty then return console
  let output ← IO.getStdout
  output.putStr console.transcript
  output.flush
  return { console with written := [] }

/-- Fetches input until a line is complete, or there is no more. -/
partial def fetchLine (console : Console) : IO Console := do
  if console.input.contains 0x0a then return console
  let bytes ← (← IO.getStdin).read 4096
  if bytes.isEmpty then return console
  fetchLine { console with input := console.input ++ bytes.toList }

/-! ## Running -/

/-- The native that the next step calls, if any. -/
def nextNative? (natives : Array Native) (c : Machine.Config) : Option Native :=
  match c.focus with
  | .give (.native f) ⟨.callee [] _ :: _, _⟩ => if f.arity = 0 then natives[f.id]? else none
  | .give _ ⟨.argument (.native f) done [] _ :: _, _⟩ =>
    if f.arity = done.length + 1 then natives[f.id]? else none
  | _ => none

/-- A configuration with another console. -/
def onConsole (c : Machine.Config) (console : Console) : Machine.Config :=
  { c with world := { c.world with console } }

/--
Gives the console what the next step may ask for: the time, and a line of input. A native that
reads is first run without input, so that its prompt is seen before the line is typed. Yields also
what the native will write once more.
-/
def provide (natives : Array Native) (c : Machine.Config) :
    IO (Machine.Config × List Emission) := do
  match nextNative? natives c with
  | none => return (c, [])
  | some native =>
    let console ← flush { c.world.console with now := ← currentTime }
    if native.name != Native.input.name || Machine.maxCalls ≤ c.world.calls then
      return (onConsole c console, [])
    match Machine.step natives (onConsole c { console with input := [] }) with
    | .config prompted =>
      let written := prompted.world.console.written
      let _ ← flush prompted.world.console
      return (onConsole c (← fetchLine console), written)
    | .halt _ _ => return (onConsole c console, [])

/-- Takes steps until the run has ended. -/
partial def drive (natives : Array Native) (c : Machine.Config) :
    IO (Except RuntimeError Machine.Flow × Machine.World) := do
  let (c, seen) ← provide natives c
  match Machine.step natives c with
  | .halt result w => return (result, { w with console := ← flush w.console })
  | .config c =>
    let console := c.world.console
    let fresh := console.written.drop seen.length
    drive natives (onConsole c (← flush { console with written := fresh }))

/-- Repeats a round until there is an exit code. -/
partial def loop (round : Session → IO (Session ⊕ Nat)) (s : Session) : IO Nat := do
  match ← round s with
  | .inl s => loop round s
  | .inr exit => return exit

/-! ## Files -/

/-- The fault that the system has a code for. Some of its calls give the code negated. -/
def faultOfCode? (code : UInt32) : Option FileFault :=
  match min code (0 - code) with
  | 2 => some .missing
  | 20 => some .notDirectory
  | 21 => some .isDirectory
  | 36 => some .nameTooLong
  | _ => none

/-- The fault behind a failure of the system. -/
def faultOf (e : IO.Error) : FileFault :=
  let fault? := match e with
    | .noFileOrDirectory _ code _ | .inappropriateType _ code _ | .invalidArgument _ code _ =>
      faultOfCode? code
    | _ => none
  fault?.getD (.other e.toString)

/-- The fault behind a failure to read a file. A directory can be opened, but not be mapped. -/
def sourceFaultOf (e : IO.Error) : Command.SourceFault :=
  match faultOf e with
  | .isDirectory => .unmapped .noDevice
  | fault => .unopened fault

instance : Host IO where
  bytesOf file := do
    try return .ok (← IO.FS.readBinFile file).toList
    catch e => return .error (sourceFaultOf e)
  createLog path := do
    try
      IO.FS.writeFile path ""
      return .ok ()
    catch e => return .error (faultOf e)
  input := return []
  run := Session.runWith drive
  await console := do fetchLine (← flush console)
  writeOut text := do (← IO.getStdout).putStr text
  writeErr text := do (← IO.getStderr).putStr text
  loop := loop

end Nya.Program

/-- Runs the program. -/
def main (args : List String) : IO UInt32 := do
  return UInt32.ofNat (← Nya.Host.respond args)
