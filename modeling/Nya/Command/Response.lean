import Nya.Command.Host

/-!
# Responses to command lines

What the program writes to its two outputs, and the exit code, when its files and its input are
known from the start. They lie on a desk; the commands are done there, and what they write is
gathered.
-/

namespace Nya

/-- All that a command may use, and what was written so far. -/
structure Desk where
  /-- Bounds the steps of each statement that is run. -/
  fuel : Nat
  directory : Directory
  input : List UInt8
  stdout : String := ""
  stderr : String := ""

namespace Desk

/-- Work at a desk. Where the fuel does not suffice there is no result. -/
abbrev Work := StateT Desk Option

/-- Repeats a round, at most as often as given. -/
def repeatRound (round : Session → Work (Session ⊕ Nat)) : Nat → Session → Work Nat
  | 0, _ => failure
  | rounds + 1, s => do
    match ← round s with
    | .inl s => repeatRound round rounds s
    | .inr exit => return exit

end Desk

namespace Command

/-- The bytes of a file. -/
def bytesOf (d : Directory) (file : String) : Except SourceFault (List UInt8) :=
  match d.locate file with
  | .error fault => .error (.unopened fault)
  | .ok .here | .ok .outside => .error (.unmapped .noDevice)
  | .ok (.file name) => .ok ((d.content? name).getD [])

/-- The source text of a file. -/
def sourceOf (d : Directory) (file : String) : Except SourceFault String :=
  (bytesOf d file).bind textOf

end Command

/-- In a dialogue each line has a byte at least, so there is a round for each and for the end. -/
instance : Host Desk.Work where
  bytesOf file := do return Command.bytesOf (← get).directory file
  createLog path := do
    match (← get).directory.create path with
    | .error fault => return .error fault
    | .ok directory =>
      modify fun desk => { desk with directory }
      return .ok ()
  input := do return (← get).input
  run s source := do s.run (← get).fuel source
  await console := return console
  writeOut text := modify fun desk => { desk with stdout := desk.stdout ++ text }
  writeErr text := modify fun desk => { desk with stderr := desk.stderr ++ text }
  loop round s := Desk.repeatRound round (s.world.console.input.length + 1) s

namespace Desk

/-! ## Each operation at a desk -/

variable {α β : Type} (desk : Desk)

@[simp] theorem work_pure (value : α) : (pure value : Work α) desk = some (value, desk) := rfl

@[simp] theorem work_bind (work : Work α) (next : α → Work β) :
    (work >>= next) desk = (work desk).bind fun done => next done.1 done.2 := rfl

@[simp] theorem work_bytesOf (file : String) :
    (Host.bytesOf file : Work _) desk = some (Command.bytesOf desk.directory file, desk) := rfl

@[simp] theorem work_input : (Host.input : Work _) desk = some (desk.input, desk) := rfl

/-- A run has the fuel of the desk, and there is no answer if that is not enough. -/
@[simp] theorem work_run (s : Session) (source : String) :
    (Host.run s source : Work _) desk = (s.run desk.fuel source).map (·, desk) := by
  show (s.run desk.fuel source).bind (fun ended => some (ended, desk)) = _
  cases s.run desk.fuel source <;> rfl

/-- The desk when a response was written on it. -/
def written (r : Command.Response) : Desk :=
  { desk with stdout := desk.stdout ++ r.stdout, stderr := desk.stderr ++ r.stderr }

/-- A response is written down, and its exit code is the answer. -/
@[simp] theorem work_emit (r : Command.Response) :
    (Host.emit r : Work Nat) desk = some (r.exit, desk.written r) := rfl

end Desk

namespace Command

/-- The response that work at a desk ends with. -/
def responseOf : Nat × Desk → Response
  | (exit, desk) => ⟨exit, desk.stdout, desk.stderr⟩

/-- Does a job. The fuel bounds the steps of each statement that is run. -/
def perform (fuel : Nat) (d : Directory) (input : List UInt8) (job : Job) : Option Response :=
  ((Host.perform job : Desk.Work Nat) { fuel, directory := d, input }).map responseOf

/-- Answers a command line in a directory: what is written, and the directory afterwards. -/
def respond (fuel : Nat) (d : Directory) (input : List UInt8) (args : List String) :
    Option (Response × Directory) :=
  ((Host.respond args : Desk.Work Nat) { fuel, directory := d, input }).map fun ended =>
    (responseOf ended, ended.2.directory)

end Command

end Nya
