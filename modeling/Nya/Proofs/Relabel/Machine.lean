import Nya.Machine.Step
import Nya.Proofs.Native.Conditions

/-!
# Relabelling a running program

A relabelling acts on all that is left to do of a running program, as it does on values and stores.
Steps commute with it if it keeps functions apart, and if natives are indifferent: they may show a
function, call it equal to another or hand it on, but they do not look at its numbers and lines.

* `Machine.step_relabel` for one step
* `Machine.run_relabel` and `Machine.interpret_relabel` for runs
-/

namespace Nya

/-! ## Configurations -/

namespace Machine

/-- The expression around the one being evaluated, with new numbers and lines. -/
def Hole.relabel (ρ : Relabel) : Hole → Hole
  | .assign target => .assign (target.relabel ρ)
  | .unary operator => .unary (operator.relabel ρ)
  | .binaryLeft operator right => .binaryLeft (operator.relabel ρ) (right.relabel ρ)
  | .binaryRight left operator => .binaryRight (left.relabel ρ) (operator.relabel ρ)
  | .logical operator right => .logical (operator.relabel ρ) (right.relabel ρ)
  | .callee arguments paren => .callee (arguments.map (Expr.relabel ρ)) (paren.relabel ρ)
  | .argument f done rest paren =>
    .argument (f.relabel ρ) (done.map (Value.relabel ρ)) (rest.map (Expr.relabel ρ))
      (paren.relabel ρ)

/-- What a statement does with a value, with new numbers and lines. -/
def Purpose.relabel (ρ : Relabel) : Purpose → Purpose
  | .discard => .discard
  | .print => .print
  | .define name => .define (name.relabel ρ)
  | .choose thenBranch elseBranch =>
    .choose (thenBranch.relabel ρ) (elseBranch.map (Stmt.relabel ρ))
  | .iterate condition body => .iterate (condition.relabel ρ) (body.relabel ρ)
  | .ret => .ret

/-- The context with new numbers and lines. -/
def Context.relabel (ρ : Relabel) (c : Context) : Context :=
  ⟨c.holes.map (Hole.relabel ρ), c.purpose.relabel ρ⟩

/-- The task with new numbers and lines. -/
def Task.relabel (ρ : Relabel) : Task → Task
  | .sequence rest => .sequence (Stmt.relabelAll ρ rest)
  | .again condition body => .again (condition.relabel ρ) (body.relabel ρ)
  | .leave env => .leave env
  | .back env caller => .back env (caller.relabel ρ)

/-- The way a statement ends, with new numbers and lines. -/
def Flow.relabel (ρ : Relabel) : Flow → Flow
  | .completed => .completed
  | .returning v => .returning (v.relabel ρ)

/-- The focus with new numbers and lines. -/
def Focus.relabel (ρ : Relabel) : Focus → Focus
  | .eval e context => .eval (e.relabel ρ) (context.relabel ρ)
  | .give v context => .give (v.relabel ρ) (context.relabel ρ)
  | .exec s => .exec (s.relabel ρ)
  | .execAll ss => .execAll (Stmt.relabelAll ρ ss)
  | .finish flow => .finish (flow.relabel ρ)
  | .raise error => .raise (error.relabel ρ)

/-- The world with new numbers and lines in its store. -/
def World.relabel (ρ : Relabel) (w : World) : World := { w with store := w.store.relabel ρ }

/-- The configuration with new numbers and lines. -/
def Config.relabel (ρ : Relabel) (c : Config) : Config :=
  ⟨c.focus.relabel ρ, c.stack.map (Task.relabel ρ), c.world.relabel ρ⟩

namespace World

variable (ρ : Relabel) (w : World)

/-- A reference is read by its name and depth, which stay. -/
theorem read?_relabel (r : Reference) :
    (w.relabel ρ).read? (r.relabel ρ) = (w.read? r).map (Value.relabel ρ) := by
  simp only [read?, Reference.relabel, relabel, Token.lexeme_relabel]
  split
  · exact w.store.readAt?_relabel ρ w.env _ _
  · exact w.store.lookup?_relabel ρ globals _

/-- A reference is assigned to in the same frame. -/
@[simp] theorem holder?_relabel (r : Reference) :
    (w.relabel ρ).holder? (r.relabel ρ) = w.holder? r := by
  simp [holder?, Reference.relabel, relabel]

theorem overwrite_relabel (holder : Env) (name : String) (v : Value) :
    (w.relabel ρ).overwrite holder name (v.relabel ρ) = (w.overwrite holder name v).relabel ρ := by
  rw [overwrite, overwrite, relabel, Store.define_relabel]
  rfl

theorem define_relabel (name : String) (v : Value) :
    (w.relabel ρ).define name (v.relabel ρ) = (w.define name v).relabel ρ :=
  w.overwrite_relabel ρ w.env name v

/-- A relabelled function is bound under the same name. -/
theorem declare_relabel (d : Declaration) :
    (w.relabel ρ).declare (d.relabel ρ) = (w.declare d).relabel ρ := by
  rw [declare, declare, relabel, Store.declare_relabel]
  rfl

theorem enter_relabel (outer : Env) : (w.relabel ρ).enter outer = (w.enter outer).relabel ρ := by
  simp only [enter, relabel, Store.next_relabel, Store.push_relabel]

/-- Parameters are bound under their names, whatever lines they are on. -/
theorem bindParams_relabel : ∀ (params : List Token) (args : List Value) (w : World),
    (w.relabel ρ).bindParams (params.map (Token.relabel ρ)) (args.map (Value.relabel ρ)) =
      (w.bindParams params args).relabel ρ
  | [], _, _ | _ :: _, [], _ => rfl
  | param :: params, arg :: args, w => by
    rw [List.map_cons, List.map_cons, bindParams, bindParams, Token.lexeme_relabel,
      define_relabel, bindParams_relabel params args]

theorem global?_relabel (name : String) :
    (w.relabel ρ).global? name = (w.global? name).map (Value.relabel ρ) :=
  w.store.lookup?_relabel ρ globals name

/-- Worlds that differ only in numbers and lines show the same. -/
theorem seen_of_relabel {ρ σ : Relabel} {w w' : World} (h : w.relabel ρ = w'.relabel σ) :
    w.console = w'.console ∧
      ∀ name, (w.global? name).map Value.text = (w'.global? name).map Value.text := by
  have hconsole : (w.relabel ρ).console = (w'.relabel σ).console := congrArg World.console h
  refine ⟨hconsole, fun name => ?_⟩
  have hname := congrArg (fun w => (World.global? w name).map Value.text) h
  simpa [global?_relabel, Function.comp_def] using hname

end World

/-! ## Steps -/

section

variable {ρ : Relabel} {natives : Array Native}

/-- A function has as many parameters as before. -/
@[simp] theorem arity?_relabel (v : Value) : arity? (v.relabel ρ) = arity? v := by
  cases v <;> simp [arity?, Value.relabel, Declaration.relabel]

/-- An indifferent native yields the same, relabelled. -/
theorem callNative_relabel (hρ : ρ.Faithful) {native : Native} (hn : native.Indifferent)
    (args : List Value) (paren : Token) (context : Context) (stack : List Task) (w : World) :
    callNative native (args.map (Value.relabel ρ)) (paren.relabel ρ) (context.relabel ρ)
        (stack.map (Task.relabel ρ)) (w.relabel ρ) =
      (callNative native args paren context stack w).relabel ρ := by
  have hglobals : (w.relabel ρ).global? = fun name => (w.global? name).map (Value.relabel ρ) :=
    funext (w.global?_relabel ρ)
  have hrun := hn ρ hρ w.global? args w.console
  rw [callNative, callNative, hglobals]
  cases hresult : native.run w.global? args w.console with
  | mk result console =>
    rw [hresult] at hrun
    simp only [World.relabel, hrun]
    cases result <;> rfl

/-- A call goes on with the relabelled body, in the same frames. -/
theorem enterCall_relabel (hρ : ρ.Faithful) (hn : ∀ n ∈ natives, n.Indifferent) (callee : Value)
    (args : List Value) (paren : Token) (context : Context) (stack : List Task) (w : World) :
    enterCall natives (callee.relabel ρ) (args.map (Value.relabel ρ)) (paren.relabel ρ)
        (context.relabel ρ) (stack.map (Task.relabel ρ)) (w.relabel ρ) =
      (enterCall natives callee args paren context stack w).relabel ρ := by
  cases callee with
  | closure d env =>
    have henter : World.enter { w.relabel ρ with calls := w.calls + 1 } env =
        (World.enter { w with calls := w.calls + 1 } env).relabel ρ :=
      World.enter_relabel ρ { w with calls := w.calls + 1 } env
    have hbind := World.bindParams_relabel ρ d.params args
      (World.enter { w with calls := w.calls + 1 } env)
    rw [← henter] at hbind
    exact congrArg (Config.mk (.execAll (Stmt.relabelAll ρ d.body))
      (.back w.env (context.relabel ρ) :: stack.map (Task.relabel ρ))) hbind
  | native f =>
    simp only [Value.relabel, enterCall]
    cases hf : natives[f.id]? with
    | none => rfl
    | some native =>
      exact callNative_relabel hρ (hn native (Array.mem_of_getElem? hf)) args paren context stack w
  | _ => rfl

/-- A call with the wrong number of arguments is refused on the new line. -/
theorem call_relabel (hρ : ρ.Faithful) (hn : ∀ n ∈ natives, n.Indifferent) (callee : Value)
    (args : List Value) (paren : Token) (context : Context) (stack : List Task) (w : World) :
    call natives (callee.relabel ρ) (args.map (Value.relabel ρ)) (paren.relabel ρ)
        (context.relabel ρ) (stack.map (Task.relabel ρ)) (w.relabel ρ) =
      (call natives callee args paren context stack w).relabel ρ := by
  simp only [call, arity?_relabel]
  cases arity? callee with
  | none => rfl
  | some arity =>
    have hcalls : (w.relabel ρ).calls = w.calls := rfl
    rw [List.length_map, hcalls]
    dsimp only
    by_cases hlength : args.length ≠ arity
    · rw [if_pos hlength, if_pos hlength]
      rfl
    · rw [if_neg hlength, if_neg hlength]
      by_cases hlimit : maxCalls ≤ w.calls
      · rw [if_pos hlimit, if_pos hlimit]
        rfl
      · rw [if_neg hlimit, if_neg hlimit]
        exact enterCall_relabel hρ hn callee args paren context stack w

theorem yield_relabel (result : Except RuntimeError Value) (context : Context) (stack : List Task)
    (w : World) :
    yield (relabelResult ρ result) (context.relabel ρ) (stack.map (Task.relabel ρ)) (w.relabel ρ) =
      (yield result context stack w).relabel ρ := by
  cases result <;> rfl

/-- An expression is evaluated alike, on its new lines. -/
theorem stepEval_relabel (e : Expr) (context : Context) (stack : List Task) (w : World) :
    stepEval (e.relabel ρ) (context.relabel ρ) (stack.map (Task.relabel ρ)) (w.relabel ρ) =
      (stepEval e context stack w).relabel ρ := by
  cases e with
  | literal id value => simp [Expr.relabel, stepEval, Config.relabel, Focus.relabel]
  | read target =>
    simp only [Expr.relabel, stepEval, World.read?_relabel]
    cases w.read? target <;> rfl
  | call id callee arguments paren =>
    rw [Expr.relabel, Expr.relabelAll_eq_map]
    rfl
  | _ => rfl

theorem nextArgument_relabel (hρ : ρ.Faithful) (hn : ∀ n ∈ natives, n.Indifferent) (callee : Value)
    (done : List Value) (rest : List Expr) (paren : Token) (context : Context) (stack : List Task)
    (w : World) :
    nextArgument natives (callee.relabel ρ) (done.map (Value.relabel ρ))
        (rest.map (Expr.relabel ρ)) (paren.relabel ρ) (context.relabel ρ)
        (stack.map (Task.relabel ρ)) (w.relabel ρ) =
      (nextArgument natives callee done rest paren context stack w).relabel ρ := by
  cases rest with
  | nil =>
    simp only [nextArgument, List.map_nil, ← List.map_reverse]
    exact call_relabel hρ hn callee done.reverse paren context stack w
  | cons e rest => rfl

/-- A value in its hole leads to the same, relabelled. -/
theorem fill_relabel (hρ : ρ.Faithful) (hn : ∀ n ∈ natives, n.Indifferent) (v : Value) (hole : Hole)
    (context : Context) (stack : List Task) (w : World) :
    fill natives (v.relabel ρ) (hole.relabel ρ) (context.relabel ρ) (stack.map (Task.relabel ρ))
        (w.relabel ρ) =
      (fill natives v hole context stack w).relabel ρ := by
  cases hole with
  | assign target =>
    simp only [Hole.relabel, fill, World.holder?_relabel]
    cases w.holder? target with
    | none => rfl
    | some holder =>
      simp only [Reference.relabel, Token.lexeme_relabel, World.overwrite_relabel]
      rfl
  | unary operator =>
    simp only [Hole.relabel, fill, applyUnary_relabel]
    exact yield_relabel _ context stack w
  | binaryLeft operator right => rfl
  | binaryRight left operator =>
    simp only [Hole.relabel, fill, applyBinary_relabel hρ]
    exact yield_relabel _ context stack w
  | logical operator right =>
    simp only [Hole.relabel, fill, settles_relabel]
    split <;> rfl
  | callee arguments paren => exact nextArgument_relabel hρ hn v [] arguments paren context stack w
  | argument callee done rest paren =>
    exact nextArgument_relabel hρ hn callee (v :: done) rest paren context stack w

/-- What is printed is the same: no text shows a number or a line. -/
theorem fulfil_relabel (v : Value) (purpose : Purpose) (stack : List Task) (w : World) :
    fulfil (v.relabel ρ) (purpose.relabel ρ) (stack.map (Task.relabel ρ)) (w.relabel ρ) =
      (fulfil v purpose stack w).relabel ρ := by
  cases purpose with
  | discard => rfl
  | print =>
    simp only [Purpose.relabel, fulfil, Value.text_relabel]
    rfl
  | define name =>
    simp only [Purpose.relabel, fulfil, Token.lexeme_relabel, World.define_relabel]
    rfl
  | choose thenBranch elseBranch =>
    simp only [Purpose.relabel, fulfil, Value.isTruthy_relabel]
    split
    · rfl
    · cases elseBranch <;> rfl
  | iterate condition body =>
    simp only [Purpose.relabel, fulfil, Value.isTruthy_relabel]
    split <;> rfl
  | ret => rfl

theorem stepGive_relabel (hρ : ρ.Faithful) (hn : ∀ n ∈ natives, n.Indifferent) (v : Value)
    (context : Context) (stack : List Task) (w : World) :
    stepGive natives (v.relabel ρ) (context.relabel ρ) (stack.map (Task.relabel ρ)) (w.relabel ρ) =
      (stepGive natives v context stack w).relabel ρ := by
  obtain ⟨holes, purpose⟩ := context
  cases holes with
  | nil => exact fulfil_relabel v purpose stack w
  | cons hole holes => exact fill_relabel hρ hn v hole ⟨holes, purpose⟩ stack w

/-- A statement leads to the same, relabelled. -/
theorem stepExec_relabel (s : Stmt) (stack : List Task) (w : World) :
    stepExec (s.relabel ρ) (stack.map (Task.relabel ρ)) (w.relabel ρ) =
      (stepExec s stack w).relabel ρ := by
  cases s with
  | var name init =>
    cases init with
    | none =>
      simp only [Stmt.relabel, Option.map_none, stepExec, Token.lexeme_relabel]
      exact congrArg (Config.mk _ _) (w.define_relabel ρ name.lexeme .nil)
    | some e => rfl
  | block body => exact congrArg (Config.mk _ _) (w.enter_relabel ρ w.env)
  | branch c t e =>
    rw [Stmt.relabel_branch]
    rfl
  | function id name params body =>
    exact congrArg (Config.mk _ _) (w.declare_relabel ρ ⟨id, name, params, body⟩)
  | ret keyword value => cases value <;> rfl
  | _ => rfl

theorem resume_relabel (flow : Flow) (task : Task) (stack : List Task) (w : World) :
    resume (flow.relabel ρ) (task.relabel ρ) (stack.map (Task.relabel ρ)) (w.relabel ρ) =
      (resume flow task stack w).relabel ρ := by
  cases task <;> cases flow <;> rfl

theorem unwind_relabel (error : RuntimeError) (task : Task) (stack : List Task) (w : World) :
    unwind (error.relabel ρ) (task.relabel ρ) (stack.map (Task.relabel ρ)) (w.relabel ρ) =
      (unwind error task stack w).relabel ρ := by
  cases task <;> rfl

/-- How a run ends, with new numbers and lines. -/
def relabelEnd (ρ : Relabel) {α : Type} (f : α → α) :
    Except RuntimeError α × World → Except RuntimeError α × World
  | (.ok v, w) => (.ok (f v), w.relabel ρ)
  | (.error e, w) => (.error (e.relabel ρ), w.relabel ρ)

/-- What a step leads to, with new numbers and lines. -/
def Next.relabel (ρ : Relabel) : Next → Next
  | .config c => .config (c.relabel ρ)
  | .halt result w =>
    .halt (relabelEnd ρ (Flow.relabel ρ) (result, w)).1 (w.relabel ρ)

/-- **Steps commute with relabelling.** -/
theorem step_relabel (hρ : ρ.Faithful) (hn : ∀ n ∈ natives, n.Indifferent) (c : Config) :
    step natives (c.relabel ρ) = (step natives c).relabel ρ := by
  obtain ⟨focus, stack, w⟩ := c
  cases focus with
  | eval e context => exact congrArg Next.config (stepEval_relabel e context stack w)
  | give v context => exact congrArg Next.config (stepGive_relabel hρ hn v context stack w)
  | exec s => exact congrArg Next.config (stepExec_relabel s stack w)
  | execAll ss => cases ss <;> rfl
  | finish flow =>
    cases stack with
    | nil => rfl
    | cons task stack => exact congrArg Next.config (resume_relabel flow task stack w)
  | raise error =>
    cases stack with
    | nil => rfl
    | cons task stack => exact congrArg Next.config (unwind_relabel error task stack w)

/-! ## Runs -/

/-- A run of a relabelled configuration ends as the run of the configuration does, relabelled. -/
theorem run_relabel (hρ : ρ.Faithful) (hn : ∀ n ∈ natives, n.Indifferent) :
    ∀ (fuel : Nat) (c : Config),
    run natives fuel (c.relabel ρ) = (run natives fuel c).map (relabelEnd ρ (Flow.relabel ρ))
  | 0, _ => rfl
  | fuel + 1, c => by
    rw [run_succ, run_succ, step_relabel hρ hn]
    cases hstep : step natives c with
    | config c' => exact run_relabel hρ hn fuel c'
    | halt result w => cases result <;> rfl

/-- **Running a relabelled program in a relabelled world is running the program, relabelled.** -/
theorem interpret_relabel (hρ : ρ.Faithful) (hn : ∀ n ∈ natives, n.Indifferent) (fuel : Nat) :
    ∀ (ss : List Stmt) (w : World),
      interpret natives fuel (Stmt.relabelAll ρ ss) (w.relabel ρ) =
        (interpret natives fuel ss w).map (relabelEnd ρ id)
  | [], w => rfl
  | s :: ss, w => by
    have hrun := run_relabel hρ hn fuel ⟨.exec s, [], w⟩
    rw [Stmt.relabelAll, interpret_cons, interpret_cons, execute]
    have hconfig : (⟨.exec (s.relabel ρ), [], w.relabel ρ⟩ : Config) =
        Config.relabel ρ ⟨.exec s, [], w⟩ := rfl
    rw [hconfig, hrun, execute]
    cases run natives fuel ⟨.exec s, [], w⟩ with
    | none => rfl
    | some outcome =>
      obtain ⟨result, w'⟩ := outcome
      cases result with
      | ok flow => exact interpret_relabel hρ hn fuel ss w'
      | error e => rfl

end

end Machine

end Nya
