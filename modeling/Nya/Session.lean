import Nya.Machine.Step
import Nya.Parse.Parser
import Nya.Scope.Resolve
import Nya.Token.Scan

/-!
# Sessions

A session runs one source text after another in the same world: what one text declares, the next
one sees. A text is scanned, parsed and resolved first; if that reports anything, nothing of it is
run.
-/

namespace Nya

/-- Any report about a program. -/
inductive Diagnostic where
  | scan (e : ScanError)
  | parse (e : SyntaxError)
  | scope (e : ScopeError)
  | runtime (e : RuntimeError)
  deriving DecidableEq, Repr

/-- The text of a report. -/
def Diagnostic.message : Diagnostic → String
  | scan e => e.message
  | parse e => e.message
  | scope e => e.message
  | runtime e => e.message

/-! ## From source to program -/

/-- A source text, parsed. -/
structure Reading where
  parsed : Parsed
  /-- The faults of scanning, then those of parsing. -/
  diagnostics : List Diagnostic

/-- Scans and parses a source text, numbering nodes and functions from the given numbers. -/
def Reading.ofSource (source : String) (nodes functions : Nat) : Reading :=
  let items := scan source
  let parsed := parse (scannedTokens items) nodes functions
  ⟨parsed, (scanErrors items).map .scan ++ parsed.errors.map .parse⟩

/-- The statements that were parsed. -/
def Reading.program (r : Reading) : List Stmt := r.parsed.statements.filterMap id

/-- The resolved program, or what is wrong with it. -/
def Reading.check (r : Reading) : Except (List Diagnostic) (List Stmt) :=
  if !r.diagnostics.isEmpty then .error r.diagnostics
  else
    let errors := scopeErrors r.program
    if !errors.isEmpty then .error (errors.map .scope) else .ok (resolve r.program)

/-! ## Sessions -/

/-- A session: the natives, the world, and the numbers for new nodes and functions. -/
structure Session where
  natives : Array Native
  world : Machine.World
  nodes : Nat := 0
  functions : Nat := 0

namespace Session

/-- Makes a native a global, in place of any other global of that name. -/
def define (s : Session) (native : Native) : Session :=
  let ref : NativeRef := ⟨s.natives.size, native.name, native.arity⟩
  { s with
    natives := s.natives.push native
    world :=
      { s.world with
        store := s.world.store.define Machine.globals native.name (.native ref) } }

/-- A new session with the given natives, defined in order. -/
def new (natives : List Native) (console : Console) : Session :=
  natives.foldl define
    { natives := #[]
      world := { store := Store.push {}, env := Machine.globals, calls := 0, console } }

/-- The value of a global. -/
def global? (s : Session) (name : String) : Option Value := s.world.global? name

/-- How a run ended. -/
inductive Status where
  | ok
  | staticError
  | runtimeError
  deriving DecidableEq, Repr

/-- Reads a source text: the program or what is wrong with it, and the session afterwards. -/
def read (s : Session) (source : String) : Except (List Diagnostic) (List Stmt) × Session :=
  let reading := Reading.ofSource source s.nodes s.functions
  (reading.check,
    { s with nodes := reading.parsed.nodes, functions := reading.parsed.functions })

/-- Runs the statements of programs: from a configuration to the end of its run. -/
abbrev Runner (m : Type → Type) : Type :=
  Array Native → Machine.Config → m (Except RuntimeError Machine.Flow × Machine.World)

section

variable {m : Type → Type} [Monad m]

/-- Runs a program in the world of the session. -/
def interpretWith (runner : Runner m) (s : Session) (program : List Stmt) :
    m (Status × List Diagnostic × Session) := do
  match ← Machine.interpretWith (runner s.natives) program s.world with
  | (.ok _, world) => return (.ok, [], { s with world })
  | (.error e, world) => return (.runtimeError, [.runtime e], { s with world })

/-- Runs a source text: how it ended, what was reported, and the session afterwards. -/
def runWith (runner : Runner m) (s : Session) (source : String) :
    m (Status × List Diagnostic × Session) :=
  match s.read source with
  | (.error diagnostics, s) => pure (.staticError, diagnostics, s)
  | (.ok program, s) => interpretWith runner s program

end

/-- Runs a program in the world of the session. -/
def interpret (s : Session) (fuel : Nat) (program : List Stmt) :
    Option (Status × List Diagnostic × Session) :=
  interpretWith (fun natives => Machine.run natives fuel) s program

theorem interpret_eq (s : Session) (fuel : Nat) (program : List Stmt) :
    s.interpret fuel program =
      match Machine.interpret s.natives fuel program s.world with
      | some (.ok _, world) => some (.ok, [], { s with world })
      | some (.error e, world) => some (.runtimeError, [.runtime e], { s with world })
      | none => none := by
  show (Machine.interpret s.natives fuel program s.world >>= _) = _
  rcases Machine.interpret s.natives fuel program s.world with _ | ⟨_ | _, _⟩ <;> rfl

/-- Runs a source text by the given steps, at most as many for a statement as the fuel says. -/
def runBy (step : Array Native → Machine.Config → Machine.Next) (s : Session) (fuel : Nat)
    (source : String) : Option (Status × List Diagnostic × Session) :=
  runWith (fun natives => Machine.runBy (step natives) fuel) s source

/--
Runs a source text: how it ended, what was reported, and the session afterwards. The fuel bounds
the steps of each statement; a run that needs more has no result.
-/
def run (s : Session) (fuel : Nat) (source : String) :
    Option (Status × List Diagnostic × Session) :=
  s.runBy Machine.step fuel source

theorem run_eq (s : Session) (fuel : Nat) (source : String) :
    s.run fuel source =
      match s.read source with
      | (.error diagnostics, s) => some (.staticError, diagnostics, s)
      | (.ok program, s) => s.interpret fuel program := rfl

end Session

end Nya
