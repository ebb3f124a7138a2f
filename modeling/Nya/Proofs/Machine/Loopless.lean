import Nya.Proofs.Machine.Layout
import Nya.Proofs.Machine.Realm
import Nya.Proofs.Session.Split

/-!
# Programs without loops

A program without loops always ends. Every step into a part of a tree makes the tree smaller, and
every step into the body of a function brings the count of calls closer to its limit: so the proof
is by induction on the calls that are left, and inside of that on trees. It does not matter where a
function comes from; all that is asked of the functions in reach is that they have no loops either.

* `Machine.Arrives` for runs that come to some configuration, and how such runs are put together
* `Machine.executesAll` for sequences of statements at any count of calls
* `Machine.loopless_terminates`
-/

namespace Nya

/-! ## Loops -/

mutual

/-- Whether there is a loop anywhere in a statement, the bodies of functions included. -/
def Stmt.hasLoop : Stmt → Bool
  | .loop _ _ => true
  | .block body | .function _ _ _ body => Stmt.hasLoopAll body
  | .branch _ thenBranch none => thenBranch.hasLoop
  | .branch _ thenBranch (some elseBranch) => thenBranch.hasLoop || elseBranch.hasLoop
  | .expression _ | .print _ | .var _ _ | .ret _ _ => false

/-- Whether there is a loop anywhere in some statements. -/
def Stmt.hasLoopAll : List Stmt → Bool
  | [] => false
  | s :: ss => s.hasLoop || Stmt.hasLoopAll ss

end

theorem Stmt.hasLoopAll_eq_false_iff {ss : List Stmt} :
    Stmt.hasLoopAll ss = false ↔ ∀ s ∈ ss, s.hasLoop = false := by
  induction ss with
  | nil => simp [Stmt.hasLoopAll]
  | cons s ss ih => simp [Stmt.hasLoopAll, ih]

theorem Stmt.hasLoop_parts {s : Stmt} (h : s.hasLoop = false) :
    ∀ part ∈ s.parts, part.hasLoop = false := by
  cases s with
  | block body | function id name params body => exact hasLoopAll_eq_false_iff.mp h
  | branch condition thenBranch elseBranch =>
    cases elseBranch <;> simpa [Stmt.parts, Stmt.hasLoop] using h
  | loop condition body => cases h
  | _ => simp [Stmt.parts]

/-- Statements without loops, and some frames. -/
def loopless (frame : FrameId → Prop) : Realm where
  expr _ := True
  stmt s := s.hasLoop = false
  unary _ := True
  binary _ := True
  fault _ := True
  frame := frame
  expr_parts _ _ _ := trivial
  stmt_exprs _ _ _ := trivial
  stmt_parts := Stmt.hasLoop_parts
  unary_of_expr _ := trivial
  binary_of_expr _ := trivial
  fault_unary _ _ := trivial
  fault_binary _ _ := trivial
  fault_of_proper _ := trivial

namespace Machine

/-! ## Runs that arrive -/

/-- The run comes to a configuration of the given kind. -/
inductive Arrives (natives : Array Native) (goal : Config → Prop) : Config → Prop
  | here {c : Config} : goal c → Arrives natives goal c
  | step {c c' : Config} : step natives c = .config c' → Arrives natives goal c' →
    Arrives natives goal c

variable {r : Realm} {natives : Array Native}

/-- What the run comes to may be taken to be in the realm. -/
theorem Arrives.bind (hn : ∀ n ∈ natives, n.Keeps r) {first goal : Config → Prop} {c : Config}
    (h : Arrives natives first c) (hc : c.Keeps r)
    (hrest : ∀ c', c'.Keeps r → first c' → Arrives natives goal c') : Arrives natives goal c := by
  induction h with
  | here hfirst => exact hrest _ hc hfirst
  | step hstep _ ih => exact .step hstep (ih (step_keeps hn hstep hc))

/-- An expression has been evaluated, for the given context, or has raised a fault. -/
inductive Answered (context : Context) (stack : List Task) (calls : Nat) : Config → Prop
  | give {v : Value} {w : World} : w.calls = calls →
    Answered context stack calls ⟨.give v context, stack, w⟩
  | raise {error : RuntimeError} {w : World} : w.calls = calls →
    Answered context stack calls ⟨.raise error, stack, w⟩

/-- A statement has ended, or has raised a fault. -/
inductive Over (stack : List Task) (calls : Nat) : Config → Prop
  | finish {flow : Flow} {w : World} : w.calls = calls →
    Over stack calls ⟨.finish flow, stack, w⟩
  | raise {error : RuntimeError} {w : World} : w.calls = calls →
    Over stack calls ⟨.raise error, stack, w⟩

variable (r natives) in
/-- The expression can be evaluated wherever that many calls are in progress. -/
def Evaluates (calls : Nat) (e : Expr) : Prop :=
  ∀ (context : Context) (stack : List Task) (w : World), w.calls = calls →
    Config.Keeps r ⟨.eval e context, stack, w⟩ →
    Arrives natives (Answered context stack calls) ⟨.eval e context, stack, w⟩

variable (r natives) in
/-- The statement can be executed wherever that many calls are in progress. -/
def Executes (calls : Nat) (s : Stmt) : Prop :=
  ∀ (stack : List Task) (w : World), w.calls = calls → Config.Keeps r ⟨.exec s, stack, w⟩ →
    Arrives natives (Over stack calls) ⟨.exec s, stack, w⟩

variable (r natives) in
/-- The statements can be executed one after another, with that many calls in progress. -/
def ExecutesAll (calls : Nat) (ss : List Stmt) : Prop :=
  ∀ (stack : List Task) (w : World), w.calls = calls → Config.Keeps r ⟨.execAll ss, stack, w⟩ →
    Arrives natives (Over stack calls) ⟨.execAll ss, stack, w⟩

variable (r natives) in
/-- Whatever may be called can be executed. -/
def CallsArrive (calls : Nat) : Prop :=
  calls < maxCalls → ∀ body, ExecutesAll r natives (calls + 1) body

variable {calls : Nat} {context : Context} {stack : List Task} {w : World}

/-- To arrive after an expression, it is enough to do so with its value. -/
theorem Evaluates.bind (hn : ∀ n ∈ natives, n.Keeps r) {e : Expr} {goal : Config → Prop}
    (he : Evaluates r natives calls e) (hw : w.calls = calls)
    (hkeeps : Config.Keeps r ⟨.eval e context, stack, w⟩)
    (hraise : ∀ error w, w.calls = calls → goal ⟨.raise error, stack, w⟩)
    (hgive : ∀ v w, w.calls = calls → Config.Keeps r ⟨.give v context, stack, w⟩ →
      Arrives natives goal ⟨.give v context, stack, w⟩) :
    Arrives natives goal ⟨.eval e context, stack, w⟩ := by
  refine (he context stack w hw hkeeps).bind hn hkeeps ?_
  intro c' hkeeps' hanswered
  cases hanswered with
  | give hw' => exact hgive _ _ hw' hkeeps'
  | raise hw' => exact .here (hraise _ _ hw')

/-- The same after statements. -/
theorem ExecutesAll.bind (hn : ∀ n ∈ natives, n.Keeps r) {ss : List Stmt} {goal : Config → Prop}
    (hss : ExecutesAll r natives calls ss) (hw : w.calls = calls)
    (hkeeps : Config.Keeps r ⟨.execAll ss, stack, w⟩)
    (hraise : ∀ error w, w.calls = calls → Arrives natives goal ⟨.raise error, stack, w⟩)
    (hfinish : ∀ flow w, w.calls = calls → Config.Keeps r ⟨.finish flow, stack, w⟩ →
      Arrives natives goal ⟨.finish flow, stack, w⟩) :
    Arrives natives goal ⟨.execAll ss, stack, w⟩ := by
  refine (hss stack w hw hkeeps).bind hn hkeeps ?_
  intro c' hkeeps' hover
  cases hover with
  | finish hw' => exact hfinish _ _ hw' hkeeps'
  | raise hw' => exact hraise _ _ hw'

/-! ## Calls -/

theorem answered_callNative (native : Native) (args : List Value) (paren : Token)
    (hw : w.calls = calls) :
    Answered context stack calls (callNative native args paren context stack w) := by
  unfold callNative
  split
  · exact .give hw
  · exact .raise hw

theorem arrives_enterCall (hn : ∀ n ∈ natives, n.Keeps r) (hcalls : CallsArrive r natives calls)
    {callee : Value} {args : List Value} {paren : Token} (hw : w.calls = calls)
    (hlimit : calls < maxCalls)
    (hkeeps : (enterCall natives callee args paren context stack w).Keeps r) :
    Arrives natives (Answered context stack calls)
      (enterCall natives callee args paren context stack w) := by
  cases callee with
  | closure d env =>
    refine (hcalls hlimit d.body).bind hn ?_ hkeeps ?_ ?_
    · rw [World.bindParams_calls]
      exact congrArg (· + 1) hw
    · intro error w' hw'
      exact .step rfl (.here (.raise (by simp [hw'])))
    · intro flow w' hw' _
      exact .step rfl (.here (.give (by simp [hw'])))
  | native f =>
    rw [enterCall]
    cases natives[f.id]? with
    | some native => exact .here (answered_callNative native args paren hw)
    | none => exact .here (.raise hw)
  | _ => exact .here (.raise hw)

theorem arrives_call (hn : ∀ n ∈ natives, n.Keeps r) (hcalls : CallsArrive r natives calls)
    {callee : Value} {args : List Value} {paren : Token} (hw : w.calls = calls)
    (hkeeps : (call natives callee args paren context stack w).Keeps r) :
    Arrives natives (Answered context stack calls)
      (call natives callee args paren context stack w) := by
  rcases call_cases callee args paren context stack w with ⟨error, heq⟩ | ⟨hlimit, heq⟩
  · rw [heq]
    exact .here (.raise hw)
  · rw [heq] at hkeeps ⊢
    exact arrives_enterCall hn hcalls hw (hw ▸ hlimit) hkeeps

/-- The arguments are evaluated one after another, then the call is made. -/
theorem arrives_nextArgument (hn : ∀ n ∈ natives, n.Keeps r)
    (hcalls : CallsArrive r natives calls) {callee : Value} {done : List Value} {rest : List Expr}
    {paren : Token} (hrest : ∀ e ∈ rest, Evaluates r natives calls e) (hw : w.calls = calls)
    (hkeeps : (nextArgument natives callee done rest paren context stack w).Keeps r) :
    Arrives natives (Answered context stack calls)
      (nextArgument natives callee done rest paren context stack w) := by
  induction rest generalizing done w with
  | nil => exact arrives_call hn hcalls hw hkeeps
  | cons e rest ih =>
    rw [List.forall_mem_cons] at hrest
    refine hrest.1.bind hn hw hkeeps (fun _ _ => .raise) ?_
    intro v w' hw' hkeeps'
    exact .step rfl (ih hrest.2 hw' (step_keeps hn rfl hkeeps'))

/-! ## Expressions -/

theorem answered_yield (result : Except RuntimeError Value) (hw : w.calls = calls) :
    Answered context stack calls (yield result context stack w) := by
  cases result with
  | ok v => exact .give hw
  | error e => exact .raise hw

theorem answered_assign (natives : Array Native) (v : Value) (target : Reference)
    (hw : w.calls = calls) :
    Answered context stack calls (fill natives v (.assign target) context stack w) := by
  rw [fill]
  cases w.holder? target with
  | some holder => exact .give hw
  | none => exact .raise hw

mutual

theorem evaluates (hn : ∀ n ∈ natives, n.Keeps r) (hcalls : CallsArrive r natives calls) :
    ∀ e, Evaluates r natives calls e
  | .literal _ _ => fun _ _ _ hw _ => .step rfl (.here (.give hw))
  | .read target => by
    intro context stack w hw _
    refine .step rfl (.here ?_)
    rw [stepEval]
    cases w.read? target with
    | some v => exact .give hw
    | none => exact .raise hw
  | .assign target value => by
    intro context stack w hw hkeeps
    refine .step rfl ((evaluates hn hcalls value).bind hn hw (step_keeps hn rfl hkeeps)
      (fun _ _ => .raise) ?_)
    intro v w' hw' _
    exact .step rfl (.here (answered_assign natives v target hw'))
  | .unary _ operator right => by
    intro context stack w hw hkeeps
    refine .step rfl ((evaluates hn hcalls right).bind hn hw (step_keeps hn rfl hkeeps)
      (fun _ _ => .raise) ?_)
    intro v w' hw' _
    exact .step rfl (.here (answered_yield _ hw'))
  | .binary _ left operator right => by
    intro context stack w hw hkeeps
    refine .step rfl ((evaluates hn hcalls left).bind hn hw (step_keeps hn rfl hkeeps)
      (fun _ _ => .raise) ?_)
    intro u w₁ hw₁ hkeeps₁
    refine .step rfl ((evaluates hn hcalls right).bind hn hw₁ (step_keeps hn rfl hkeeps₁)
      (fun _ _ => .raise) ?_)
    intro v w₂ hw₂ _
    exact .step rfl (.here (answered_yield _ hw₂))
  | .logical _ left operator right => by
    intro context stack w hw hkeeps
    refine .step rfl ((evaluates hn hcalls left).bind hn hw (step_keeps hn rfl hkeeps)
      (fun _ _ => .raise) ?_)
    intro v w' hw' hkeeps'
    have hnext := step_keeps hn rfl hkeeps'
    refine .step rfl ?_
    by_cases hsettles : settles operator v
    · rw [stepGive, Context.push]
      simp only [fill, if_pos hsettles]
      exact .here (.give hw')
    · rw [stepGive, Context.push] at hnext ⊢
      simp only [fill, if_neg hsettles] at hnext ⊢
      exact evaluates hn hcalls right context stack w' hw' hnext
  | .group _ inner => by
    intro context stack w hw hkeeps
    exact .step rfl (evaluates hn hcalls inner context stack w hw (step_keeps hn rfl hkeeps))
  | .call _ callee arguments paren => by
    intro context stack w hw hkeeps
    refine .step rfl ((evaluates hn hcalls callee).bind hn hw (step_keeps hn rfl hkeeps)
      (fun _ _ => .raise) ?_)
    intro f w' hw' hkeeps'
    exact .step rfl (arrives_nextArgument hn hcalls (evaluatesAll hn hcalls arguments) hw'
      (step_keeps hn rfl hkeeps'))

theorem evaluatesAll (hn : ∀ n ∈ natives, n.Keeps r) (hcalls : CallsArrive r natives calls) :
    ∀ es : List Expr, ∀ e ∈ es, Evaluates r natives calls e
  | [] => fun _ hmem => absurd hmem List.not_mem_nil
  | e :: es => List.forall_mem_cons.mpr ⟨evaluates hn hcalls e, evaluatesAll hn hcalls es⟩

end

/-! ## Statements -/

section

variable {frame : FrameId → Prop} (hn : ∀ n ∈ natives, n.Keeps (loopless frame))
include hn

/-- A statement that is over when its expression has a value. -/
theorem arrives_fulfil {e : Expr} {purpose : Purpose}
    (he : Evaluates (loopless frame) natives calls e) (hw : w.calls = calls)
    (hkeeps : Config.Keeps (loopless frame) ⟨.eval e ⟨[], purpose⟩, stack, w⟩)
    (hover : ∀ v w, w.calls = calls → Over stack calls (fulfil v purpose stack w)) :
    Arrives natives (Over stack calls) ⟨.eval e ⟨[], purpose⟩, stack, w⟩ :=
  he.bind hn hw hkeeps (fun _ _ => .raise) fun v w' hw' _ => .step rfl (.here (hover v w' hw'))

mutual

theorem executes (hcalls : CallsArrive (loopless frame) natives calls) :
    ∀ s, Executes (loopless frame) natives calls s
  | .expression e | .print e => fun _ _ hw hkeeps =>
    .step rfl (arrives_fulfil hn (evaluates hn hcalls e) hw (step_keeps hn rfl hkeeps)
      fun _ _ hw' => .finish hw')
  | .var _ none => fun _ _ hw _ => .step rfl (.here (.finish hw))
  | .var _ (some e) => fun _ _ hw hkeeps =>
    .step rfl (arrives_fulfil hn (evaluates hn hcalls e) hw (step_keeps hn rfl hkeeps)
      fun _ _ hw' => .finish hw')
  | .block body => by
    intro stack w hw hkeeps
    refine .step rfl ((executesAll_of hcalls body).bind hn hw (step_keeps hn rfl hkeeps) ?_ ?_)
    · exact fun _ _ hw' => .step rfl (.here (.raise hw'))
    · exact fun _ _ hw' _ => .step rfl (.here (.finish hw'))
  | .branch condition thenBranch elseBranch => by
    intro stack w hw hkeeps
    refine .step rfl ((evaluates hn hcalls condition).bind hn hw (step_keeps hn rfl hkeeps)
      (fun _ _ => .raise) ?_)
    intro v w' hw' hkeeps'
    refine .step rfl ?_
    obtain ⟨⟨-, -, hthen, helse⟩, hstack, hworld⟩ := hkeeps'
    simp only [stepGive, fulfil]
    split
    · exact executes hcalls thenBranch stack w' hw' ⟨hthen, hstack, hworld⟩
    · cases elseBranch with
      | some s => exact executes hcalls s stack w' hw' ⟨helse s rfl, hstack, hworld⟩
      | none => exact .here (.finish hw')
  | .loop _ _ => fun _ _ _ hkeeps => absurd hkeeps.focus Bool.noConfusion
  | .function _ _ _ _ => fun _ _ hw _ => .step rfl (.here (.finish hw))
  | .ret _ none => fun _ _ hw _ => .step rfl (.here (.finish hw))
  | .ret _ (some e) => fun _ _ hw hkeeps =>
    .step rfl (arrives_fulfil hn (evaluates hn hcalls e) hw (step_keeps hn rfl hkeeps)
      fun _ _ hw' => .finish hw')

theorem executesAll_of (hcalls : CallsArrive (loopless frame) natives calls) :
    ∀ ss, ExecutesAll (loopless frame) natives calls ss
  | [] => fun _ _ hw _ => .step rfl (.here (.finish hw))
  | s :: ss => by
    intro stack w hw hkeeps
    refine .step rfl ?_
    have hfirst := step_keeps hn rfl hkeeps
    refine (executes hcalls s _ w hw hfirst).bind hn hfirst ?_
    intro c' hkeeps' hover
    cases hover with
    | raise hw' => exact .step rfl (.here (.raise hw'))
    | @finish flow w' hw' =>
      cases flow with
      | completed =>
        exact .step rfl (executesAll_of hcalls ss stack w' hw' (step_keeps hn rfl hkeeps'))
      | returning v => exact .step rfl (.here (.finish hw'))

end

/-- The body of a function is executed one call closer to the limit. -/
theorem executesAll (calls : Nat) : ∀ ss, ExecutesAll (loopless frame) natives calls ss := by
  obtain ⟨left, hleft⟩ : ∃ left, maxCalls - calls = left := ⟨_, rfl⟩
  induction left generalizing calls with
  | zero =>
    refine executesAll_of hn ?_
    intro hlimit
    omega
  | succ left ih =>
    refine executesAll_of hn ?_
    intro hlimit
    exact ih (calls + 1) (by omega)

end

/-! ## Runs -/

/-- A run that comes to the end of its statement has a result. -/
theorem Arrives.run {c : Config} (h : Arrives natives (Over [] calls) c) :
    ∃ fuel result, run natives fuel c = some result := by
  induction h with
  | here hover => cases hover <;> exact ⟨1, _, rfl⟩
  | step hstep _ ih =>
    obtain ⟨fuel, result, hrun⟩ := ih
    refine ⟨fuel + 1, result, ?_⟩
    rw [Machine.run_succ, hstep]
    exact hrun

/-! ## Functions in reach -/

/-- A function that a native yields although it was not given it. -/
def MadeUp (natives : Array Native) (d : Declaration) (env : Env) : Prop :=
  ∃ native ∈ natives, ∃ globals args console,
    (native.run globals args console).1 = .ok (.closure d env) ∧
      .closure d env ∉ args ∧ ∀ name, globals name ≠ some (.closure d env)

/-- Honest natives make up nothing. -/
theorem not_madeUp {d : Declaration} {env : Env} (hn : ∀ n ∈ natives, n.Honest) :
    ¬ MadeUp natives d env := by
  rintro ⟨native, hmem, globals, args, console, hrun, hargs, hglobals⟩
  rcases hn native hmem globals args console d env hrun with harg | ⟨name, hname⟩
  · exact hargs harg
  · exact hglobals name hname

/--
The frames in reach of a world: those of the current environment and the frame of the globals, and
those of functions that are found in such frames or made up by natives.
-/
inductive World.Reaches (natives : Array Native) (w : World) : FrameId → Prop
  | globals : Reaches natives w globals.frame
  | env {f : FrameId} : f ∈ w.env.frames → Reaches natives w f
  | closure {f f' : FrameId} {name : String} {d : Declaration} {env : Env} :
    Reaches natives w f → (w.store.frame f).get? name = some (.value (.closure d env)) →
    f' ∈ env.frames → Reaches natives w f'
  | madeUp {f : FrameId} {d : Declaration} {env : Env} : MadeUp natives d env → f ∈ env.frames →
    Reaches natives w f

/-- The functions in reach of a world. -/
inductive World.MayCall (natives : Array Native) (w : World) : Declaration → Prop
  | declared {f : FrameId} {name : String} {d : Declaration} : w.Reaches natives f →
    (w.store.frame f).get? name = some (.function d) → MayCall natives w d
  | value {f : FrameId} {name : String} {d : Declaration} {env : Env} : w.Reaches natives f →
    (w.store.frame f).get? name = some (.value (.closure d env)) → MayCall natives w d
  | madeUp {d : Declaration} {env : Env} : MadeUp natives d env → MayCall natives w d

/-- The frames in reach now, and those that are still to be made. -/
def World.inReach (natives : Array Native) (w : World) (f : FrameId) : Prop :=
  w.Reaches natives f ∨ w.store.next ≤ f

section

variable (hfunctions : ∀ d, w.MayCall natives d → Stmt.hasLoopAll d.body = false)
include hfunctions

theorem keeps_loopless_native :
    ∀ n ∈ natives, n.Keeps (loopless (w.inReach natives)) := by
  intro native hmem globals args console v hglobals hargs hrun
  cases v with
  | closure d env =>
    by_cases harg : .closure d env ∈ args
    · exact hargs _ harg
    by_cases hglobal : ∃ name, globals name = some (.closure d env)
    · obtain ⟨name, hname⟩ := hglobal
      exact hglobals name _ hname
    have hmade : MadeUp natives d env :=
      ⟨native, hmem, globals, args, console, hrun, harg, fun name h => hglobal ⟨name, h⟩⟩
    exact ⟨Stmt.hasLoopAll_eq_false_iff.mp (hfunctions d (.madeUp hmade)),
      fun f hf => Or.inl (.madeUp hmade hf)⟩
  | _ => trivial

theorem keeps_loopless_store : w.store.Keeps (loopless (w.inReach natives)) := by
  intro f hf name b hb
  rcases hf with hf | hf
  · cases b with
    | function d => exact Stmt.hasLoopAll_eq_false_iff.mp (hfunctions d (.declared hf hb))
    | value v =>
      cases v with
      | closure d env =>
        exact ⟨Stmt.hasLoopAll_eq_false_iff.mp (hfunctions d (.value hf hb)),
          fun f' hf' => Or.inl (.closure hf hb hf')⟩
      | _ => trivial
  · rw [Store.frame_of_le hf] at hb
    cases hb

theorem keeps_loopless_world : w.Keeps (loopless (w.inReach natives)) where
  store := keeps_loopless_store hfunctions
  env _ hf := Or.inl (.env hf)
  globals f hf := by
    obtain rfl : f = globals.frame := List.mem_singleton.mp hf
    exact Or.inl .globals
  next _ hf := Or.inr hf

end

theorem exists_interpret {frame : FrameId → Prop}
    (hn : ∀ n ∈ natives, n.Keeps (loopless frame)) {ss : List Stmt} (hw : w.Keeps (loopless frame))
    (hss : ∀ s ∈ ss, s.hasLoop = false) :
    ∃ fuel result, interpret natives fuel ss w = some result := by
  induction ss generalizing w with
  | nil => exact ⟨0, _, rfl⟩
  | cons s ss ih =>
    rw [List.forall_mem_cons] at hss
    have hkeeps : Config.Keeps (loopless frame) ⟨.exec s, [], w⟩ := keeps_exec hss.1 hw
    obtain ⟨n, ⟨result, w₁⟩, hrun⟩ :=
      (executes hn (fun _ => executesAll hn _) s [] w rfl hkeeps).run
    cases result with
    | error e =>
      refine ⟨n, (.error e, w₁), ?_⟩
      rw [interpret_cons, execute, hrun]
    | ok flow =>
      obtain ⟨m, result, hrest⟩ := ih (run_keeps hn hrun hkeeps) hss.2
      refine ⟨max n m, result, ?_⟩
      rw [interpret_cons, execute, run_of_le (Nat.le_max_left n m) hrun]
      exact interpret_of_le (Nat.le_max_right n m) hrest

/--
**Programs without loops always end.** If none of the functions in reach has a loop, a program
without one ends in some result, with or without a fault; no recursion can go on forever. It does
not matter how many calls are in progress at the start.
-/
theorem loopless_terminates {natives : Array Native} {w : World} {program : List Stmt}
    (hfunctions : ∀ d, w.MayCall natives d → Stmt.hasLoopAll d.body = false)
    (hprogram : Stmt.hasLoopAll program = false) :
    ∃ fuel result w', ∀ more, fuel ≤ more →
      interpret natives more program w = some (result, w') := by
  obtain ⟨fuel, ⟨result, w'⟩, hrun⟩ := exists_interpret (keeps_loopless_native hfunctions)
    (keeps_loopless_world hfunctions) (Stmt.hasLoopAll_eq_false_iff.mp hprogram)
  exact ⟨fuel, result, w', fun more hmore => interpret_of_le hmore hrun⟩

/-- In a world without loops anywhere no function in reach has one. -/
theorem World.Keeps.mayCall (hw : w.Keeps (loopless fun _ => True))
    (hn : ∀ n ∈ natives, n.Honest) {d : Declaration} (h : w.MayCall natives d) :
    Stmt.hasLoopAll d.body = false := by
  rw [Stmt.hasLoopAll_eq_false_iff]
  cases h with
  | declared _ hb => exact hw.store _ trivial _ _ hb
  | value _ hb => exact (hw.store _ trivial _ _ hb).1
  | madeUp hmade => exact absurd hmade (not_madeUp hn)

/-- Two functions, each of which calls what it is given, with itself. -/
def entangled : String := ":D f(g) :> c: g(f); <: :D h(k) :> c: k(h); <:"

/-- What is read of the text in a new session has no loop, and no more has what is read after it. -/
theorem entangled_loopless :
    ((Session.new Native.standard {}).read entangled).1.toOption.map Stmt.hasLoopAll = some false ∧
    ((Session.new Native.standard {}).run 100 entangled).map (fun r => (r.1, r.2.1)) =
      some (.ok, []) ∧
    ((Session.new Native.standard {}).run 100 entangled).bind (fun r =>
      (r.2.2.read "f(h);").1.toOption.map Stmt.hasLoopAll) = some false := by
  decide +kernel

/-- The two call each other on and on, until the limit of calls ends the run. -/
theorem loopless_terminates_entangled :
    ∃ s program, (Session.new Native.standard {}).run 100 entangled = some (.ok, [], s) ∧
      (s.read "f(h);").1 = .ok program ∧
      (∀ d, s.world.MayCall s.natives d → Stmt.hasLoopAll d.body = false) ∧
      Stmt.hasLoopAll program = false ∧
      ∃ fuel result w', ∀ more, fuel ≤ more →
        interpret s.natives more program s.world = some (result, w') := by
  obtain ⟨hdefinitions, hrun, hcall⟩ := entangled_loopless
  obtain ⟨⟨status, ds, s⟩, hs, heq⟩ := Option.map_eq_some_iff.mp hrun
  cases heq
  rw [hs, Option.bind_some] at hcall
  obtain ⟨program, hprogram, hloop⟩ := Option.map_eq_some_iff.mp hcall
  have hread : (s.read "f(h);").1 = .ok program := by
    cases hresult : (s.read "f(h);").1 with
    | error ds => simp [hresult, Except.toOption] at hprogram
    | ok p => simpa [hresult, Except.toOption] using hprogram
  have hnew : (Session.new Native.standard {}).Keeps (loopless fun _ => True) :=
    Session.new_keeps (fun n hn => (Native.standard_honest n hn).keeps _) (fun _ => trivial) _
  have hkeeps : s.Keeps (loopless fun _ => True) := by
    refine hnew.run ?_ hs
    intro definitions hok
    rw [hok] at hdefinitions
    exact Stmt.hasLoopAll_eq_false_iff.mp (by simpa [Except.toOption] using hdefinitions)
  have hhonest : ∀ n ∈ s.natives, n.Honest := by
    rw [Session.run_natives hs]
    exact Session.forall_natives_new Native.standard_honest _
  have hfunctions : ∀ d, s.world.MayCall s.natives d → Stmt.hasLoopAll d.body = false :=
    fun d => hkeeps.world.mayCall hhonest
  exact ⟨s, program, hs, hread, hfunctions, hloop, loopless_terminates hfunctions hloop⟩

end Machine

end Nya
