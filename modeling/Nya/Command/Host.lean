import Nya.Command.Arguments
import Nya.Directory
import Nya.Session
import Nya.Text.Quoted
import Nya.Token.Json
import Nya.Tree.Printer

/-!
# Commands and their host

What the program does with a command line. `tokenize` shows the tokens of a file, `parse` its
statements, `run` runs it, and `repl` runs the lines of its input one after another in one session.

The commands are written over a `Host`: what reads files and input, runs source texts and writes
the two outputs. There are two of them. One is a desk on which all of this lies
(`Command/Response.lean`), the other the system that the program runs on (`Main.lean`).
-/

namespace Nya

namespace Command

/-- The name and version of the program. -/
def versionLine : String := "nyasharp 0.1.0"

/-- A summary of the command line. -/
def usage : String :=
  "Usage: nya [--log] [--log-file PATH] [tokenize FILE [--json] | parse FILE | run FILE | repl]"

/-- What the program writes, and its exit code. -/
structure Response where
  exit : Nat := 0
  stdout : String := ""
  stderr : String := ""
  deriving DecidableEq, Repr

/-- Lines of text, each with its newline. -/
def linesOf (lines : List String) : String := String.join (lines.map (· ++ "\n"))

/-! ## Exit codes -/

/-- The exit code of a failure that is not about the program that is run. -/
def exitFailure : Nat := 1

/-- The exit code of a malformed command line. -/
def exitMalformed : Nat := 2

/-- The exit code for a file that is no script. -/
def exitNoScript : Nat := 64

/-- The exit code for faults found before running. -/
def exitStatic : Nat := 65

/-- The exit code for a fault while running. -/
def exitRuntime : Nat := 70

/-- The exit code of a run. -/
def exitOf : Session.Status → Nat
  | .ok => 0
  | .staticError => exitStatic
  | .runtimeError => exitRuntime

/-! ## Failures -/

/-- The text of a failure and its cause. -/
def failureText (failure cause : String) : String :=
  "Error: " ++ failure ++ "\n\nCaused by:\n    " ++ cause ++ "\n"

/-- Why a source text cannot be had from a file. -/
inductive SourceFault where
  | unopened (fault : FileFault)
  | unmapped (fault : FileFault)
  | invalid (fault : Utf8.Fault)
  deriving DecidableEq, Repr

/-- The text of a failure to read a file. -/
def SourceFault.text (file : String) : SourceFault → String
  | unopened fault => failureText ("Failed to open file " ++ Text.quoted file) fault.message
  | unmapped fault => failureText ("Failed to map file " ++ Text.quoted file) fault.message
  | invalid fault => failureText (Text.quoted file ++ " is not valid UTF-8") fault.message

/-- The text of a failure to make the log. -/
def logFailureText (path cause : String) : String :=
  failureText ("Failed to create log file " ++ Text.quoted path) cause

/-- The text of a failure to read a line. -/
def lineFailureText : String := failureText "Failed to read line" invalidInputMessage

/-- What is said about a file that is no script. -/
def noScriptText (file : String) : String :=
  "UwU! Sow sowwy. It wooks wike ywou mwade a fucky wucky. " ++ Text.quoted file ++
    " is not .nya :c\n"

/-- Whether a file is a script, by its name. -/
def isScript (file : String) : Bool := extension? file == some "nya"

/-- The text that bytes are. -/
def textOf (bytes : List UInt8) : Except SourceFault String :=
  match Utf8.decode bytes with
  | .ok source => .ok source
  | .error fault => .error (.invalid fault)

/-! ## Jobs on a source text -/

/-- Shows the tokens of a source text. -/
def tokenizeSource (json : Bool) (source : String) : Response :=
  let items := scan source
  let tokens := scannedTokens items
  let errors := scanErrors items
  { exit := if errors.isEmpty then 0 else exitStatic
    stdout :=
      if json then (Token.listToJson tokens).pretty ++ "\n" else linesOf (tokens.map Token.listing)
    stderr := linesOf (errors.map ScanError.message) }

/-- Shows the statements of a source text, unless it has faults. -/
def parseSource (source : String) : Response :=
  let reading := Reading.ofSource source 0 0
  if reading.diagnostics.isEmpty then
    { stdout := linesOf (reading.program.map Stmt.printed) }
  else
    { exit := exitStatic, stderr := linesOf (reading.diagnostics.map Diagnostic.message) }

/-- A session of the command line, whose programs may read the input. -/
def newSession (input : List UInt8) : Session :=
  Session.new (Native.standard ++ [Native.input]) { input }

/-- What is written about the run of a source text. -/
def ranSource : Session.Status × List Diagnostic × Session → Response
  | (status, diagnostics, s) =>
    { exit := exitOf status
      stdout := s.world.console.transcript
      stderr := linesOf (diagnostics.map Diagnostic.message) }

/-- What is written where no job is asked for. -/
def Halt.response : Halt → Response
  | help => { stdout := usage ++ "\n" }
  | version => { stdout := versionLine ++ "\n" }
  | malformed => { exit := exitMalformed, stderr := usage ++ "\n" }

/-- What is shown before a line is read. -/
def promptText : String := "> "

/-- Changes the console of a session. -/
def withConsole (s : Session) (console : Console) : Session :=
  { s with world := { s.world with console } }

end Command

open Command

/-- What a command needs of its surroundings. -/
class Host (m : Type → Type) extends Monad m where
  /-- The bytes of a file. -/
  bytesOf (file : String) : m (Except SourceFault (List UInt8))
  /-- Makes an empty file at a path. -/
  createLog (path : String) : m (Except FileFault Unit)
  /-- The input, as far as it is there before it is waited for. -/
  input : m (List UInt8)
  /-- Runs a source text in a session. -/
  run (s : Session) (source : String) : m (Session.Status × List Diagnostic × Session)
  /-- Waits until the console has a line, or there is no more input. -/
  await (console : Console) : m Console
  writeOut (text : String) : m Unit
  writeErr (text : String) : m Unit
  /-- Repeats a round, from a session to the next one, until there is an exit code. -/
  loop (round : Session → m (Session ⊕ Nat)) (s : Session) : m Nat

namespace Host

variable {m : Type → Type} [Host m]

/-- Writes a response and yields its exit code. -/
def emit (r : Response) : m Nat := do
  writeOut r.stdout
  writeErr r.stderr
  return r.exit

/-- Answers with what is made of the source text of a file. -/
def onSource (file : String) (f : String → m Response) : m Nat := do
  match (← bytesOf file).bind textOf with
  | .ok source => emit (← f source)
  | .error fault => emit { exit := exitFailure, stderr := fault.text file }

/-- A round of the dialogue: reads a line and runs it. -/
def round (s : Session) : m (Session ⊕ Nat) := do
  match (← await (s.world.console.write (.prompt promptText))).readLine with
  | (.endOfInput, console) => return .inr (← emit { stdout := console.transcript })
  | (.invalid, console) =>
    return .inr (← emit
      { exit := exitFailure, stdout := console.transcript, stderr := lineFailureText })
  | (.text line, console) =>
    let (_, diagnostics, s) ← run (withConsole s console) line
    writeErr (linesOf (diagnostics.map Diagnostic.message))
    return .inl s

/-- Does a job and yields the exit code. -/
def perform : Job → m Nat
  | .tokenize file json => onSource file fun source => return tokenizeSource json source
  | .parse file => onSource file fun source => return parseSource source
  | .run file =>
    if isScript file then
      onSource file fun source => do return ranSource (← run (newSession (← input)) source)
    else emit { exit := exitNoScript, stderr := noScriptText file }
  | .repl => do loop round (newSession (← input))

/-- Answers a command line. The log is made before anything else is done. -/
def respond (args : List String) : m Nat := do
  match Request.ofArguments args with
  | .error halt => emit halt.response
  | .ok ⟨job, none⟩ => perform job
  | .ok ⟨job, some path⟩ =>
    match ← createLog path with
    | .error fault => emit { exit := exitFailure, stderr := logFailureText path fault.message }
    | .ok () => perform job

end Host

end Nya
