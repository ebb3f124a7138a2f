/-!
# Command lines

The arguments of the program are options, a verb, and the options and the file of that verb. An
option for the log may stand before the verb and after it, once each; the one after it counts more.
The arguments are read from left to right: the first one that is wrong, or that asks for help or
for the version, ends the reading.
-/

namespace Nya.Command

/-- What can be done with a source text. -/
inductive Verb where
  | tokenize
  | parse
  | run
  | repl
  deriving DecidableEq, Repr

/-- The verb that a word names. -/
def Verb.ofName? (name : String) : Option Verb :=
  if name = "tokenize" then some tokenize
  else if name = "parse" then some parse
  else if name = "run" then some run
  else if name = "repl" then some repl
  else none

/-- Whether a verb is about a file. -/
def Verb.takesFile (v : Verb) : Bool := v != repl

/-- What the program is asked to do. -/
inductive Job where
  | tokenize (file : String) (json : Bool)
  | parse (file : String)
  | run (file : String)
  | repl
  deriving DecidableEq, Repr

/-- A command line that asks for a job. -/
structure Request where
  job : Job
  /-- Where a log is to be written, if at all. -/
  log : Option String
  deriving DecidableEq, Repr

/-- Why a command line does not ask for a job. -/
inductive Halt where
  | help
  | version
  | malformed
  deriving DecidableEq, Repr

/-- Where the log is written if no other place is given. -/
def defaultLog : String := "nyasharp.log"

/-! ## Options -/

/-- The options and the file seen so far, before the verb or after it. -/
structure Given where
  log : Bool := false
  logFile : Option String := none
  json : Bool := false
  file : Option String := none
  deriving DecidableEq, Repr

namespace Given

/-- Asks for a log. -/
def addLog (g : Given) : Except Halt Given :=
  if g.log then .error .malformed else .ok { g with log := true }

/-- Says where the log goes. -/
def addLogFile (g : Given) (path : String) : Except Halt Given :=
  if g.logFile.isSome ∨ path = "" then .error .malformed else .ok { g with logFile := some path }

/-- Asks for JSON, which only `tokenize` writes. -/
def addJson (g : Given) (verb : Option Verb) : Except Halt Given :=
  if g.json ∨ verb ≠ some .tokenize then .error .malformed else .ok { g with json := true }

/-- Names the file of a verb. -/
def addFile (g : Given) (verb : Option Verb) (path : String) : Except Halt Given :=
  if g.file.isSome ∨ path = "" ∨ !(verb.any Verb.takesFile) then .error .malformed
  else .ok { g with file := some path }

/-- Takes all arguments for files. -/
def addFiles (g : Given) (verb : Option Verb) : List String → Except Halt Given
  | [] => .ok g
  | path :: paths => do (← g.addFile verb path).addFiles verb paths

end Given

/-- Whether an argument is an option, or the mark after which there are none. -/
def isOption (arg : String) : Bool := arg.startsWith "-" && arg != "-"

/-- The value of an argument of the form `name=value`. -/
def attached? (name arg : String) : Option String :=
  let start := (name ++ "=").toList
  if start.isPrefixOf arg.toList then some (String.ofList (arg.toList.drop start.length)) else none

/-- An option with a name of one letter. -/
def letterOption (verb : Option Verb) (arg : String) : Halt :=
  match arg.toList with
  | '-' :: 'h' :: _ => .help
  | '-' :: 'V' :: _ => if verb.isNone then .version else .malformed
  | _ => .malformed

/-- What an option asks for that is none of the options for the log or for JSON. -/
def otherOption (verb : Option Verb) (arg : String) : Halt :=
  if arg = "--help" then .help
  else if arg = "--version" then if verb.isNone then .version else .malformed
  else letterOption verb arg

/-- What follows the word `help`: at most one verb. -/
def helpOn : List String → Halt
  | [] => .help
  | [name] => if name = "help" ∨ (Verb.ofName? name).isSome then .help else .malformed
  | _ => .malformed

/--
Reads arguments: those before the verb up to it, if no verb is given, and all arguments of the verb
otherwise. Yields what was given, and the next verb with the arguments after it.
-/
def readArguments (verb : Option Verb) (g : Given) :
    List String → Except Halt (Given × Option (Verb × List String))
  | [] => .ok (g, none)
  | arg :: args =>
    if arg = "--" then do return (← g.addFiles verb args, none)
    else if arg = "--log" then do readArguments verb (← g.addLog) args
    else if arg = "--json" then do readArguments verb (← g.addJson verb) args
    else if arg = "--log-file" then
      match args with
      | [] => .error .malformed
      | path :: args =>
        if isOption path then .error .malformed
        else do readArguments verb (← g.addLogFile path) args
    else
      match attached? "--log-file" arg with
      | some path => do readArguments verb (← g.addLogFile path) args
      | none =>
        if isOption arg then .error (otherOption verb arg)
        else
          match verb with
          | some verb => do readArguments verb (← g.addFile verb arg) args
          | none =>
            if arg = "help" then .error (helpOn args)
            else
              match Verb.ofName? arg with
              | some verb => .ok (g, some (verb, args))
              | none => .error .malformed

/-! ## Requests -/

/-- The job of a verb. -/
def Verb.job (verb : Verb) (g : Given) : Except Halt Job :=
  match verb, g.file with
  | repl, _ => .ok .repl
  | tokenize, some file => .ok (.tokenize file g.json)
  | parse, some file => .ok (.parse file)
  | run, some file => .ok (.run file)
  | _, none => .error .malformed

/-- Where the log goes that was asked for before the verb or after it. -/
def logPath (before after : Given) : Option String :=
  if before.log ∨ after.log then some ((after.logFile <|> before.logFile).getD defaultLog)
  else none

/-- Reads a command line. Without a verb it asks for the dialogue. -/
def Request.ofArguments (args : List String) : Except Halt Request := do
  match ← readArguments none {} args with
  | (before, none) => return ⟨.repl, logPath before {}⟩
  | (before, some (verb, args)) =>
    let (after, _) ← readArguments (some verb) {} args
    return ⟨← verb.job after, logPath before after⟩

end Nya.Command
