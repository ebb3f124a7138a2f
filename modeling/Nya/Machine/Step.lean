import Nya.Machine.Basic

/-!
# Steps and runs

`step` takes a configuration to the next one, or says how the run has ended. `run` repeats it as
often as its fuel allows; a run that has not ended by then has no result.
-/

namespace Nya.Machine

/-- The environment of the globals. -/
def globals : Env := .root 0

/-- The most calls that may be in progress. -/
def maxCalls : Nat := 5000

/-! ## Variables -/

namespace World

/-- The value of a reference: a global unless it has a depth. -/
def read? (w : World) (r : Reference) : Option Value :=
  match r.depth with
  | some depth => w.store.readAt? w.env depth r.name.lexeme
  | none => w.store.lookup? globals r.name.lexeme

/-- The environment whose innermost frame holds the variable of a reference. -/
def holder? (w : World) (r : Reference) : Option Env :=
  match r.depth with
  | some depth => w.store.holderAt? r.name.lexeme depth w.env
  | none => w.store.holder? r.name.lexeme globals

/-- Overwrites a variable in the environment that holds it. -/
def overwrite (w : World) (holder : Env) (name : String) (v : Value) : World :=
  { w with store := w.store.define holder name v }

/-- Binds a name in the current frame. -/
def define (w : World) (name : String) (v : Value) : World :=
  { w with store := w.store.define w.env name v }

/-- Binds a function in the current frame. -/
def declare (w : World) (d : Declaration) : World :=
  { w with store := w.store.declare w.env d }

/-- Makes a new frame inside the given environment the current one. -/
def enter (w : World) (outer : Env) : World :=
  let env := .child w.store.next outer
  { w with store := w.store.push, env }

/-- Goes back to an environment. -/
def leave (w : World) (env : Env) : World := { w with env }

/-- Binds the parameters of a function in the current frame. -/
def bindParams (w : World) : List Token → List Value → World
  | param :: params, arg :: args => (w.define param.lexeme arg).bindParams params args
  | _, _ => w

/-- Writes a line. -/
def print (w : World) (text : String) : World := { w with console := w.console.print text }

/-- The value of a global. -/
def global? (w : World) (name : String) : Option Value := w.store.lookup? globals name

end World

/-! ## Calls -/

/-- How many arguments a value takes, if it can be called. -/
def arity? : Value → Option Nat
  | .closure d _ => some d.params.length
  | .native f => some f.arity
  | _ => none

/-- Calls a native. A message it fails with becomes a fault of the call. -/
def callNative (native : Native) (args : List Value) (paren : Token) (context : Context)
    (stack : List Task) (w : World) : Config :=
  match native.run w.global? args w.console with
  | (.ok v, console) => ⟨.give v context, stack, { w with console }⟩
  | (.error message, console) =>
    ⟨.raise (.ofToken paren (.native message)), stack, { w with console }⟩

/-- Calls a function that takes these arguments. -/
def enterCall (natives : Array Native) (callee : Value) (args : List Value) (paren : Token)
    (context : Context) (stack : List Task) (w : World) : Config :=
  match callee with
  | .closure d env =>
    let stack := .back w.env context :: stack
    ⟨.execAll d.body, stack, ({ w with calls := w.calls + 1 }.enter env).bindParams d.params args⟩
  | .native f =>
    match natives[f.id]? with
    | some native => callNative native args paren context stack w
    | none => ⟨.raise (.ofToken paren .notCallable), stack, w⟩
  | _ => ⟨.raise (.ofToken paren .notCallable), stack, w⟩

/-- Checks a call and makes it: what is called comes first, then the arguments, then the limit. -/
def call (natives : Array Native) (callee : Value) (args : List Value) (paren : Token)
    (context : Context) (stack : List Task) (w : World) : Config :=
  match arity? callee with
  | none => ⟨.raise (.ofToken paren .notCallable), stack, w⟩
  | some arity =>
    if args.length ≠ arity then ⟨.raise (.ofToken paren (.wrongArity arity args.length)), stack, w⟩
    else if maxCalls ≤ w.calls then ⟨.raise (.ofToken paren .stackOverflow), stack, w⟩
    else enterCall natives callee args paren context stack w

/-! ## Steps -/

/-- The configuration after an operator was applied. -/
def yield (result : Except RuntimeError Value) (context : Context) (stack : List Task)
    (w : World) : Config :=
  match result with
  | .ok v => ⟨.give v context, stack, w⟩
  | .error e => ⟨.raise e, stack, w⟩

/-- Starts an expression. -/
def stepEval (e : Expr) (context : Context) (stack : List Task) (w : World) : Config :=
  match e with
  | .literal _ value => ⟨.give value.toValue context, stack, w⟩
  | .read target =>
    match w.read? target with
    | some v => ⟨.give v context, stack, w⟩
    | none => ⟨.raise (.undefined target.name), stack, w⟩
  | .assign target value => ⟨.eval value (context.push (.assign target)), stack, w⟩
  | .unary _ operator right => ⟨.eval right (context.push (.unary operator)), stack, w⟩
  | .binary _ left operator right =>
    ⟨.eval left (context.push (.binaryLeft operator right)), stack, w⟩
  | .logical _ left operator right =>
    ⟨.eval left (context.push (.logical operator right)), stack, w⟩
  | .group _ inner => ⟨.eval inner context, stack, w⟩
  | .call _ callee arguments paren =>
    ⟨.eval callee (context.push (.callee arguments paren)), stack, w⟩

/-- Goes on with the arguments of a call, or makes the call. -/
def nextArgument (natives : Array Native) (callee : Value) (done : List Value)
    (rest : List Expr) (paren : Token) (context : Context) (stack : List Task) (w : World) :
    Config :=
  match rest with
  | [] => call natives callee done.reverse paren context stack w
  | e :: rest => ⟨.eval e (context.push (.argument callee done rest paren)), stack, w⟩

/-- Gives a value to the expression around it. -/
def fill (natives : Array Native) (v : Value) (hole : Hole) (context : Context)
    (stack : List Task) (w : World) : Config :=
  match hole with
  | .assign target =>
    match w.holder? target with
    | some holder => ⟨.give v context, stack, w.overwrite holder target.name.lexeme v⟩
    | none => ⟨.raise (.undefined target.name), stack, w⟩
  | .unary operator => yield (applyUnary operator v) context stack w
  | .binaryLeft operator right =>
    ⟨.eval right (context.push (.binaryRight v operator)), stack, w⟩
  | .binaryRight left operator => yield (applyBinary operator left v) context stack w
  | .logical operator right =>
    if settles operator v then ⟨.give v context, stack, w⟩
    else ⟨.eval right context, stack, w⟩
  | .callee arguments paren => nextArgument natives v [] arguments paren context stack w
  | .argument callee done rest paren =>
    nextArgument natives callee (v :: done) rest paren context stack w

/-- Gives the value of an expression to its statement. -/
def fulfil (v : Value) (purpose : Purpose) (stack : List Task) (w : World) : Config :=
  match purpose with
  | .discard => ⟨.finish .completed, stack, w⟩
  | .print => ⟨.finish .completed, stack, w.print v.text⟩
  | .define name => ⟨.finish .completed, stack, w.define name.lexeme v⟩
  | .choose thenBranch elseBranch =>
    if v.isTruthy then ⟨.exec thenBranch, stack, w⟩
    else
      match elseBranch with
      | some s => ⟨.exec s, stack, w⟩
      | none => ⟨.finish .completed, stack, w⟩
  | .iterate condition body =>
    if v.isTruthy then ⟨.exec body, .again condition body :: stack, w⟩
    else ⟨.finish .completed, stack, w⟩
  | .ret => ⟨.finish (.returning v), stack, w⟩

/-- Gives a value to what waits for it. -/
def stepGive (natives : Array Native) (v : Value) (context : Context) (stack : List Task)
    (w : World) : Config :=
  match context.holes with
  | [] => fulfil v context.purpose stack w
  | hole :: holes => fill natives v hole ⟨holes, context.purpose⟩ stack w

/-- Starts a statement. -/
def stepExec (s : Stmt) (stack : List Task) (w : World) : Config :=
  match s with
  | .expression e => ⟨.eval e ⟨[], .discard⟩, stack, w⟩
  | .print e => ⟨.eval e ⟨[], .print⟩, stack, w⟩
  | .var name (some init) => ⟨.eval init ⟨[], .define name⟩, stack, w⟩
  | .var name none => ⟨.finish .completed, stack, w.define name.lexeme .nil⟩
  | .block body => ⟨.execAll body, .leave w.env :: stack, w.enter w.env⟩
  | .branch condition thenBranch elseBranch =>
    ⟨.eval condition ⟨[], .choose thenBranch elseBranch⟩, stack, w⟩
  | .loop condition body => ⟨.eval condition ⟨[], .iterate condition body⟩, stack, w⟩
  | .function id name params body =>
    ⟨.finish .completed, stack, w.declare ⟨id, name, params, body⟩⟩
  | .ret _ (some e) => ⟨.eval e ⟨[], .ret⟩, stack, w⟩
  | .ret _ none => ⟨.finish (.returning .nil), stack, w⟩

/-- Goes on after a statement has ended. A return skips all tasks up to the call around it. -/
def resume (flow : Flow) (task : Task) (stack : List Task) (w : World) : Config :=
  match task, flow with
  | .leave env, flow => ⟨.finish flow, stack, w.leave env⟩
  | .back env caller, flow =>
    ⟨.give flow.result caller, stack, { w.leave env with calls := w.calls - 1 }⟩
  | .sequence rest, .completed => ⟨.execAll rest, stack, w⟩
  | .again condition body, .completed =>
    ⟨.eval condition ⟨[], .iterate condition body⟩, stack, w⟩
  | .sequence _, .returning v => ⟨.finish (.returning v), stack, w⟩
  | .again _ _, .returning v => ⟨.finish (.returning v), stack, w⟩

/-- Drops a task on the way out after a fault, giving back what it holds. -/
def unwind (error : RuntimeError) (task : Task) (stack : List Task) (w : World) : Config :=
  match task with
  | .leave env => ⟨.raise error, stack, w.leave env⟩
  | .back env _ => ⟨.raise error, stack, { w.leave env with calls := w.calls - 1 }⟩
  | .sequence _ | .again _ _ => ⟨.raise error, stack, w⟩

/-- What a step leads to. -/
inductive Next where
  | config (c : Config)
  | halt (result : Except RuntimeError Flow) (w : World)

/-- One step. -/
def step (natives : Array Native) : Config → Next
  | ⟨.eval e context, stack, w⟩ => .config (stepEval e context stack w)
  | ⟨.give v context, stack, w⟩ => .config (stepGive natives v context stack w)
  | ⟨.exec s, stack, w⟩ => .config (stepExec s stack w)
  | ⟨.execAll [], stack, w⟩ => .config ⟨.finish .completed, stack, w⟩
  | ⟨.execAll (s :: ss), stack, w⟩ => .config ⟨.exec s, .sequence ss :: stack, w⟩
  | ⟨.finish flow, [], w⟩ => .halt (.ok flow) w
  | ⟨.finish flow, task :: stack, w⟩ => .config (resume flow task stack w)
  | ⟨.raise error, [], w⟩ => .halt (.error error) w
  | ⟨.raise error, task :: stack, w⟩ => .config (unwind error task stack w)

/-! ## Runs -/

/-- Steps until the run has ended, at most as often as the fuel says. -/
@[specialize] def runBy (step : Config → Next) :
    Nat → Config → Option (Except RuntimeError Flow × World)
  | 0, _ => none
  | fuel + 1, c =>
    match step c with
    | .halt result w => some (result, w)
    | .config c' => runBy step fuel c'

/-- Runs statements one after another, up to the first fault. Each is run in its own turn. -/
def interpretWith {m : Type → Type} [Monad m]
    (run : Config → m (Except RuntimeError Flow × World)) :
    List Stmt → World → m (Except RuntimeError Unit × World)
  | [], w => pure (.ok (), w)
  | s :: ss, w => do
    match ← run ⟨.exec s, [], w⟩ with
    | (.ok _, w') => interpretWith run ss w'
    | (.error e, w') => pure (.error e, w')

/-- Steps until the run has ended, at most as often as the fuel says. -/
def run (natives : Array Native) : Nat → Config → Option (Except RuntimeError Flow × World) :=
  runBy (step natives)

theorem run_succ (natives : Array Native) (fuel : Nat) (c : Config) :
    run natives (fuel + 1) c =
      match step natives c with
      | .halt result w => some (result, w)
      | .config c' => run natives fuel c' := rfl

/-- Runs one statement. -/
def execute (natives : Array Native) (fuel : Nat) (s : Stmt) (w : World) :
    Option (Except RuntimeError Flow × World) :=
  run natives fuel ⟨.exec s, [], w⟩

/-- Evaluates one expression, for no other statement than one that returns its value. -/
def evaluate (natives : Array Native) (fuel : Nat) (e : Expr) (w : World) :
    Option (Except RuntimeError Value × World) :=
  (run natives fuel ⟨.eval e ⟨[], .ret⟩, [], w⟩).map fun (result, w') =>
    (result.map Flow.result, w')

/-- Runs statements one after another, up to the first fault. -/
def interpret (natives : Array Native) (fuel : Nat) :
    List Stmt → World → Option (Except RuntimeError Unit × World) :=
  interpretWith (run natives fuel)

theorem interpret_cons (natives : Array Native) (fuel : Nat) (s : Stmt) (ss : List Stmt)
    (w : World) :
    interpret natives fuel (s :: ss) w =
      match execute natives fuel s w with
      | some (.ok _, w') => interpret natives fuel ss w'
      | some (.error e, w') => some (.error e, w')
      | none => none := by
  show (run natives fuel ⟨.exec s, [], w⟩ >>= _) = _
  unfold execute
  rcases run natives fuel ⟨.exec s, [], w⟩ with _ | ⟨_ | _, _⟩ <;> rfl

end Nya.Machine
