import Nya.Proofs.Machine.Balance

/-!
# Returns

An activation of a function is the part of a run from the call to the moment at which the call is
left. The tasks that were there before the call stay at the bottom of the stack all that time; a
configuration with another call on the stack above them belongs to that call, and all others are the
activation's own.

Once an activation has executed a return, it is *leaving*: all it does from then on is to evaluate
the value and to drop its tasks. No step undoes this, and nothing but a return or a fault brings it
about.

* `Config.over` for a run with more tasks at the bottom of the stack
* `Config.Leaving`, and `step_phase` for how it changes
* `Answer` for the value of a call and `answer_of_run`, `OnlyLeaves` and `onlyLeaves_trace`
-/

namespace Nya.Machine

variable {natives : Array Native} {base : List Task} {c : Config} {fuel : Nat}
  {result : Except RuntimeError Flow}

/-! ## Runs above other tasks -/

/-- The same configuration with more to do afterwards. -/
def Config.over (base : List Task) (c : Config) : Config := { c with stack := c.stack ++ base }

section

variable (base) (context : Context) (stack : List Task) (w : World)

/-- Evaluation does not look at the stack. -/
theorem stepEval_over (e : Expr) :
    stepEval e context (stack ++ base) w = (stepEval e context stack w).over base := by
  cases e with
  | read target =>
    simp only [stepEval]
    cases w.read? target <;> rfl
  | _ => rfl

/-- A call puts its task on top, whatever is at the bottom. -/
theorem enterCall_over (callee : Value) (args : List Value) (paren : Token) :
    enterCall natives callee args paren context (stack ++ base) w =
      (enterCall natives callee args paren context stack w).over base := by
  cases callee with
  | native f =>
    simp only [enterCall]
    cases natives[f.id]? with
    | none => rfl
    | some native =>
      simp only [callNative]
      split <;> rfl
  | _ => rfl

theorem call_over (callee : Value) (args : List Value) (paren : Token) :
    call natives callee args paren context (stack ++ base) w =
      (call natives callee args paren context stack w).over base := by
  unfold call
  split
  · rfl
  · split
    · rfl
    · split
      · rfl
      · exact enterCall_over base context stack w callee args paren

theorem nextArgument_over (callee : Value) (done : List Value) (rest : List Expr) (paren : Token) :
    nextArgument natives callee done rest paren context (stack ++ base) w =
      (nextArgument natives callee done rest paren context stack w).over base := by
  cases rest with
  | nil => exact call_over base context stack w callee done.reverse paren
  | cons e rest => rfl

theorem yield_over (result : Except RuntimeError Value) :
    yield result context (stack ++ base) w = (yield result context stack w).over base := by
  cases result <;> rfl

theorem fill_over (v : Value) (hole : Hole) :
    fill natives v hole context (stack ++ base) w =
      (fill natives v hole context stack w).over base := by
  cases hole with
  | assign target =>
    simp only [fill]
    cases w.holder? target <;> rfl
  | unary operator => exact yield_over base context stack w _
  | binaryLeft operator right => rfl
  | binaryRight left operator => exact yield_over base context stack w _
  | logical operator right =>
    simp only [fill]
    split <;> rfl
  | callee arguments paren => exact nextArgument_over base context stack w v [] arguments paren
  | argument f done rest paren =>
    exact nextArgument_over base context stack w f (v :: done) rest paren

theorem fulfil_over (v : Value) (purpose : Purpose) :
    fulfil v purpose (stack ++ base) w = (fulfil v purpose stack w).over base := by
  cases purpose with
  | choose thenBranch elseBranch =>
    simp only [fulfil]
    split
    · rfl
    · cases elseBranch <;> rfl
  | iterate condition body =>
    simp only [fulfil]
    split <;> rfl
  | _ => rfl

theorem stepExec_over (s : Stmt) :
    stepExec s (stack ++ base) w = (stepExec s stack w).over base := by
  cases s with
  | var name init => cases init <;> rfl
  | ret keyword value => cases value <;> rfl
  | _ => rfl

end

/-- A step does not look at the tasks below. -/
theorem step_over {c c' : Config} (h : step natives c = .config c') :
    step natives (c.over base) = .config (c'.over base) := by
  obtain ⟨focus, stack, w⟩ := c
  cases focus with
  | eval e context =>
    cases h
    exact congrArg Next.config (stepEval_over base context stack w e)
  | give v context =>
    cases h
    obtain ⟨holes, purpose⟩ := context
    cases holes with
    | nil => exact congrArg Next.config (fulfil_over base stack w v purpose)
    | cons hole holes => exact congrArg Next.config (fill_over base ⟨holes, purpose⟩ stack w v hole)
  | exec s =>
    cases h
    exact congrArg Next.config (stepExec_over base stack w s)
  | execAll ss => cases ss <;> cases h <;> rfl
  | finish flow =>
    cases stack with
    | nil => cases h
    | cons task stack => cases h; cases task <;> cases flow <;> rfl
  | raise error =>
    cases stack with
    | nil => cases h
    | cons task stack => cases h; cases task <;> rfl

/-- What a run is about when it has ended in the given way. -/
def Focus.ofResult : Except RuntimeError Flow → Focus
  | .ok flow => .finish flow
  | .error e => .raise e

/-- A run halts with an empty stack only. -/
theorem eq_of_step_halt {w : World} (h : step natives c = .halt result w) :
    c = ⟨.ofResult result, [], w⟩ := by
  unfold step at h
  split at h <;> cases h <;> rfl

/-- A run that ends has ended above the tasks below first, and needs no more fuel from there on. -/
theorem run_over {w : World} (h : run natives fuel (c.over base) = some (result, w)) :
    ∃ n result₁ w₁ m, m ≤ fuel ∧ run natives n c = some (result₁, w₁) ∧
      run natives m ⟨.ofResult result₁, base, w₁⟩ = some (result, w) := by
  induction fuel generalizing c with
  | zero => cases h
  | succ fuel ih =>
    cases hstep : step natives c with
    | config c' =>
      rw [run_succ, step_over hstep] at h
      obtain ⟨n, result₁, w₁, m, hm, hrun, hrest⟩ := ih h
      refine ⟨n + 1, result₁, w₁, m, Nat.le_succ_of_le hm, ?_, hrest⟩
      rw [run_succ, hstep]
      exact hrun
    | halt result₁ w₁ =>
      refine ⟨1, result₁, w₁, fuel + 1, Nat.le_refl _, ?_, ?_⟩
      · rw [run_succ, hstep]
      · rw [eq_of_step_halt hstep] at h
        exact h

/-- The trace above a task, and what follows when that task is left, if the fuel allows. -/
theorem trace_over (task : Task) (stack : List Task) (fuel : Nat) (c : Config) :
    ∃ rest, trace natives fuel (c.over (task :: stack)) =
        (trace natives fuel c).map (Config.over (task :: stack)) ++ rest ∧
      (rest = [] ∧ (trace natives fuel c).length = fuel ∨
        ∃ result w c' more, run natives fuel c = some (result, w) ∧
          step natives ⟨.ofResult result, task :: stack, w⟩ = .config c' ∧ rest = c' :: more) := by
  induction fuel generalizing c with
  | zero => exact ⟨[], rfl, Or.inl ⟨rfl, rfl⟩⟩
  | succ fuel ih =>
    cases hstep : step natives c with
    | config c' =>
      obtain ⟨rest, htrace, hrest⟩ := ih c'
      refine ⟨rest, ?_, ?_⟩
      · rw [trace_succ, trace_succ, step_over hstep, hstep]
        simp only [htrace, List.map_cons, List.cons_append]
      · rw [trace_succ, run_succ, hstep]
        simpa using hrest
    | halt result w =>
      have hc := eq_of_step_halt hstep
      obtain ⟨c', hnext⟩ : ∃ c', step natives (c.over (task :: stack)) = .config c' := by
        rw [hc]
        cases result <;> exact ⟨_, rfl⟩
      refine ⟨trace natives fuel c', ?_, ?_⟩
      · rw [trace_succ, trace_succ, hnext, hstep]
        rfl
      · cases fuel with
        | zero => exact Or.inl ⟨rfl, by rw [trace_succ, hstep]; rfl⟩
        | succ fuel =>
          refine Or.inr ⟨result, w, c', _, by rw [run_succ, hstep], ?_, rfl⟩
          rw [← hnext, hc]
          rfl

/-! ## Leaving -/

/-- The expression that waits for the outermost call on a stack. -/
def outermost? : List Task → Option Context
  | [] => none
  | .back _ caller :: stack => some ((outermost? stack).getD caller)
  | _ :: stack => outermost? stack

/-- There is an outermost call just if there is a call. -/
theorem outermost?_eq_none_iff {stack : List Task} :
    outermost? stack = none ↔ callsOn stack = 0 := by
  induction stack with
  | nil => simp [outermost?, callsOn]
  | cons task stack ih => cases task <;> simp_all [outermost?, callsOn, Task.isCall]

/-- On the way out: evaluating what is returned, or dropping tasks. -/
def Focus.Leaving : Focus → Prop
  | .eval _ context | .give _ context => context.purpose = .ret
  | .finish (.returning _) | .raise _ => True
  | .exec _ | .execAll _ | .finish .completed => False

/-- The activation at the bottom of the stack is on the way out, or waits for a call on that way. -/
def Config.Leaving (c : Config) : Prop :=
  match outermost? c.stack with
  | some caller => caller.purpose = .ret
  | none => c.focus.Leaving

/-- How a step changes whether the activation at the bottom is leaving. -/
inductive Phase (c c' : Config) : Prop
  | same : (c'.Leaving ↔ c.Leaving) → Phase c c'
  | returned {keyword : Token} {value : Option Expr} : outermost? c.stack = none →
    c.focus = .exec (.ret keyword value) → c'.Leaving → Phase c c'
  | raised {error : RuntimeError} : outermost? c'.stack = none → c'.focus = .raise error →
    Phase c c'

/-- What a step inside of an expression leads to; the purpose of the expression stays the same. -/
inductive Within (purpose : Purpose) (stack : List Task) : Config → Prop
  | eval {e : Expr} {holes : List Hole} {w : World} :
    Within purpose stack ⟨.eval e ⟨holes, purpose⟩, stack, w⟩
  | give {v : Value} {holes : List Hole} {w : World} :
    Within purpose stack ⟨.give v ⟨holes, purpose⟩, stack, w⟩
  | enter {body : List Stmt} {env : Env} {holes : List Hole} {w : World} :
    Within purpose stack ⟨.execAll body, .back env ⟨holes, purpose⟩ :: stack, w⟩
  | raise {error : RuntimeError} {w : World} : Within purpose stack ⟨.raise error, stack, w⟩

section

variable (context : Context) (stack : List Task) (w : World)

/-- Evaluation stays in the expression. -/
theorem within_stepEval (e : Expr) : Within context.purpose stack (stepEval e context stack w) := by
  cases e with
  | literal id value => exact .give
  | read target =>
    simp only [stepEval]
    cases w.read? target with
    | some v => exact .give
    | none => exact .raise
  | _ => exact .eval

/-- A call either yields a value to the expression around it, or waits for the body with the same
purpose. -/
theorem within_enterCall (callee : Value) (args : List Value) (paren : Token) :
    Within context.purpose stack (enterCall natives callee args paren context stack w) := by
  cases callee with
  | closure d env => exact .enter
  | native f =>
    simp only [enterCall]
    cases natives[f.id]? with
    | none => exact .raise
    | some native =>
      simp only [callNative]
      split
      · exact .give
      · exact .raise
  | _ => exact .raise

theorem within_nextArgument (callee : Value) (done : List Value) (rest : List Expr)
    (paren : Token) :
    Within context.purpose stack
      (nextArgument natives callee done rest paren context stack w) := by
  cases rest with
  | nil =>
    rw [nextArgument]
    rcases call_cases callee done.reverse paren context stack w with ⟨error, heq⟩ | ⟨-, heq⟩
    · rw [heq]
      exact .raise
    · rw [heq]
      exact within_enterCall context stack w callee done.reverse paren
  | cons e rest => exact .eval

theorem within_yield (result : Except RuntimeError Value) :
    Within context.purpose stack (yield result context stack w) := by
  cases result with
  | ok v => exact .give
  | error e => exact .raise

theorem within_fill (v : Value) (hole : Hole) :
    Within context.purpose stack (fill natives v hole context stack w) := by
  cases hole with
  | assign target =>
    simp only [fill]
    cases w.holder? target with
    | some holder => exact .give
    | none => exact .raise
  | unary operator => exact within_yield context stack w _
  | binaryLeft operator right => exact .eval
  | binaryRight left operator => exact within_yield context stack w _
  | logical operator right =>
    simp only [fill]
    split
    · exact .give
    · exact .eval
  | callee arguments paren => exact within_nextArgument context stack w v [] arguments paren
  | argument f done rest paren =>
    exact within_nextArgument context stack w f (v :: done) rest paren

end

/-- Inside of an expression only a fault starts the way out. -/
theorem Within.phase {c c' : Config} {context : Context} (h : Within context.purpose c.stack c')
    (hfocus : c.focus.Leaving ↔ context.purpose = .ret) : Phase c c' := by
  obtain ⟨focus, stack, w⟩ := c
  cases houter : outermost? stack with
  | none =>
    cases h with
    | raise => exact .raised houter rfl
    | _ => exact .same (by simp_all [Config.Leaving, Focus.Leaving, outermost?])
  | some caller =>
    refine .same ?_
    cases h <;> simp_all [Config.Leaving, outermost?]

/-- To put a value to its purpose neither starts nor ends the way out. -/
theorem phase_fulfil (v : Value) (purpose : Purpose) (stack : List Task) (w : World) :
    Phase ⟨.give v ⟨[], purpose⟩, stack, w⟩ (fulfil v purpose stack w) := by
  refine .same ?_
  cases purpose with
  | choose thenBranch elseBranch =>
    simp only [fulfil]
    split
    · cases houter : outermost? stack <;> simp [Config.Leaving, Focus.Leaving, houter]
    · cases elseBranch <;> cases houter : outermost? stack <;>
        simp [Config.Leaving, Focus.Leaving, houter]
  | iterate condition body =>
    simp only [fulfil]
    split <;> cases houter : outermost? stack <;>
      simp [Config.Leaving, Focus.Leaving, outermost?, houter]
  | _ => cases houter : outermost? stack <;> simp [fulfil, Config.Leaving, Focus.Leaving, houter]

/-- An activation that executes a return is leaving, with a value to evaluate or without. -/
theorem leaving_stepExec_ret {stack : List Task} (houter : outermost? stack = none)
    (keyword : Token) (value : Option Expr) (w : World) :
    (stepExec (.ret keyword value) stack w).Leaving := by
  cases value <;> simp [stepExec, Config.Leaving, Focus.Leaving, houter]

/-- Of all statements only a return makes an activation leave. -/
theorem phase_stepExec (s : Stmt) (stack : List Task) (w : World) :
    Phase ⟨.exec s, stack, w⟩ (stepExec s stack w) := by
  cases s with
  | ret keyword value =>
    cases houter : outermost? stack with
    | none => exact .returned houter rfl (leaving_stepExec_ret houter keyword value w)
    | some caller =>
      refine .same ?_
      cases value <;> simp [stepExec, Config.Leaving, houter]
  | var name init =>
    refine .same ?_
    cases init <;> cases houter : outermost? stack <;>
      simp [stepExec, Config.Leaving, Focus.Leaving, houter]
  | _ =>
    refine .same ?_
    cases houter : outermost? stack <;>
      simp [stepExec, Config.Leaving, Focus.Leaving, outermost?, houter]

/-- To go on with a task neither starts nor ends the way out. -/
theorem phase_resume (flow : Flow) (task : Task) (stack : List Task) (w : World) :
    Phase ⟨.finish flow, task :: stack, w⟩ (resume flow task stack w) := by
  refine .same ?_
  cases task <;> cases flow <;> cases houter : outermost? stack <;>
    simp [resume, Config.Leaving, Focus.Leaving, outermost?, houter]

/-- A fault that passes the last call above the activation becomes the activation's own. -/
theorem phase_unwind (error : RuntimeError) (task : Task) (stack : List Task) (w : World) :
    Phase ⟨.raise error, task :: stack, w⟩ (unwind error task stack w) := by
  cases houter : outermost? stack with
  | none => cases task <;> exact .raised houter rfl
  | some caller =>
    refine .same ?_
    cases task <;> simp [unwind, Config.Leaving, outermost?, houter]

/-- **Only a return or a fault starts the way out**, and nothing ends it. -/
theorem step_phase {c c' : Config} (h : step natives c = .config c') : Phase c c' := by
  obtain ⟨focus, stack, w⟩ := c
  cases focus with
  | eval e context =>
    cases h
    exact (within_stepEval context stack w e).phase Iff.rfl
  | give v context =>
    cases h
    obtain ⟨holes, purpose⟩ := context
    cases holes with
    | nil => exact phase_fulfil v purpose stack w
    | cons hole holes => exact (within_fill ⟨holes, purpose⟩ stack w v hole).phase Iff.rfl
  | exec s =>
    cases h
    exact phase_stepExec s stack w
  | execAll ss =>
    refine .same ?_
    cases ss <;> cases h <;> cases houter : outermost? stack <;>
      simp [Config.Leaving, Focus.Leaving, outermost?, houter]
  | finish flow =>
    cases stack with
    | nil => cases h
    | cons task stack =>
      cases h
      exact phase_resume flow task stack w
  | raise error =>
    cases stack with
    | nil => cases h
    | cons task stack =>
      cases h
      exact phase_unwind error task stack w

theorem Config.leaving_of_raise {error : RuntimeError} (houter : outermost? c.stack = none)
    (hfocus : c.focus = .raise error) : c.Leaving := by
  simp [Config.Leaving, Focus.Leaving, houter, hfocus]

/-- An activation that is leaving does not come back. -/
theorem Config.Leaving.step {c c' : Config} (h : step natives c = .config c') (hc : c.Leaving) :
    c'.Leaving := by
  cases step_phase h with
  | same hiff => exact hiff.mpr hc
  | returned _ _ hc' => exact hc'
  | raised houter hfocus => exact Config.leaving_of_raise houter hfocus

/-! ## Ends of runs -/

/-- A fault passes through all tasks. -/
theorem run_raise {error : RuntimeError} {stack : List Task} {w w' : World}
    (h : run natives fuel ⟨.raise error, stack, w⟩ = some (result, w')) :
    result = .error error := by
  induction stack generalizing fuel w with
  | nil =>
    cases fuel with
    | zero => cases h
    | succ fuel =>
      cases h
      rfl
  | cons task stack ih =>
    cases fuel with
    | zero => cases h
    | succ fuel => cases task <;> exact ih h

/-- A return passes through all tasks but calls. -/
theorem run_returning {v : Value} {stack : List Task} {w w' : World} (hown : callsOn stack = 0)
    (h : run natives fuel ⟨.finish (.returning v), stack, w⟩ = some (result, w')) :
    result = .ok (.returning v) := by
  induction stack generalizing fuel w with
  | nil =>
    cases fuel with
    | zero => cases h
    | succ fuel =>
      cases h
      rfl
  | cons task stack ih =>
    cases fuel with
    | zero => cases h
    | succ fuel =>
      cases task with
      | back env caller => simp [callsOn, Task.isCall] at hown
      | sequence rest => exact ih (by simpa [callsOn, Task.isCall] using hown) h
      | again condition body => exact ih (by simpa [callsOn, Task.isCall] using hown) h
      | leave env => exact ih (by simpa [callsOn, Task.isCall] using hown) h

/-- What is on its way out does not complete. -/
theorem run_leaving {flow : Flow} {w : World} (hc : c.Leaving)
    (h : run natives fuel c = some (.ok flow, w)) : ∃ v, flow = .returning v := by
  induction fuel generalizing c with
  | zero => cases h
  | succ fuel ih =>
    rw [run_succ] at h
    cases hstep : step natives c with
    | config c' =>
      rw [hstep] at h
      exact ih (hc.step hstep) h
    | halt result w' =>
      rw [hstep] at h
      cases h
      rw [eq_of_step_halt hstep] at hc
      cases flow with
      | completed => exact hc.elim
      | returning v => exact ⟨v, rfl⟩

/-- The value of a run that executes a return is that of the expression. -/
theorem run_ret {keyword : Token} {e : Expr} {stack : List Task} {w w' : World} {flow : Flow}
    (hown : callsOn stack = 0)
    (h : run natives fuel ⟨.exec (.ret keyword (some e)), stack, w⟩ = some (.ok flow, w')) :
    ∃ n w₁, evaluate natives n e w = some (.ok flow.result, w₁) := by
  cases fuel with
  | zero => cases h
  | succ fuel =>
    have hover : run natives fuel (Config.over stack ⟨.eval e ⟨[], .ret⟩, [], w⟩) =
        some (.ok flow, w') := h
    obtain ⟨n, result, w₁, m, -, hrun, hrest⟩ := run_over hover
    cases result with
    | error e =>
      have hflow := run_raise hrest
      cases hflow
    | ok flow₁ =>
      obtain ⟨v, rfl⟩ := run_leaving (by rfl) hrun
      have hflow := run_returning hown hrest
      cases hflow
      exact ⟨n, w₁, by rw [evaluate, hrun]; rfl⟩

/-! ## Activations -/

/-- The configuration is one of the activation above these tasks, and not of a call in it. -/
def Config.Own (base : List Task) (c : Config) : Prop :=
  ∃ top, c.stack = top ++ base ∧ callsOn top = 0

/-- The activation above these tasks is about to execute a return of the given expression. -/
def Config.Returns (base : List Task) (value : Option Expr) (c : Config) : Prop :=
  c.Own base ∧ ∃ keyword, c.focus = .exec (.ret keyword value)

variable (natives base) in
/--
The value with which an activation answers, after the given configurations: that of the first
return which it executed, or `nuww` if it has executed none or one without a value.
-/
inductive Answer : List Config → Value → Prop
  | passed {during : List Config} : (∀ c ∈ during, ∀ value, ¬ c.Returns base value) →
    Answer during .nil
  | bare {before later : List Config} {c : Config} :
    (∀ c ∈ before, ∀ value, ¬ c.Returns base value) → c.Returns base none →
    Answer (before ++ c :: later) .nil
  | value {before later : List Config} {c : Config} {e : Expr} {fuel : Nat} {v : Value}
    {w : World} : (∀ c ∈ before, ∀ value, ¬ c.Returns base value) → c.Returns base (some e) →
    evaluate natives fuel e c.world = some (.ok v, w) → Answer (before ++ c :: later) v

variable (base) in
/-- After a return the activation does nothing of its own but leave. -/
def OnlyLeaves (during : List Config) : Prop :=
  ∀ before c later value, during = before ++ c :: later → c.Returns base value →
    ∀ c' ∈ later, c'.Own base → c'.focus.Leaving

/-- What is put on top of other tasks is the activation's own just if there is no call in it. -/
theorem Config.own_over : (c.over base).Own base ↔ callsOn c.stack = 0 := by
  constructor
  · rintro ⟨top, hstack, hown⟩
    rwa [List.append_cancel_right hstack]
  · exact fun hown => ⟨c.stack, rfl, hown⟩

/-- A return of the activation is one that stands in no call above it. -/
theorem Config.returns_over {value : Option Expr} :
    (c.over base).Returns base value ↔
      outermost? c.stack = none ∧ ∃ keyword, c.focus = .exec (.ret keyword value) := by
  rw [Config.Returns, Config.own_over, outermost?_eq_none_iff]
  rfl

/-- A configuration of a call, or one that executes no return, can be put in front. -/
theorem Answer.cons {during : List Config} {v : Value} (h : Answer natives base during v)
    (hc : ∀ value, ¬ c.Returns base value) :
    Answer natives base (c :: during) v := by
  cases h with
  | passed hnone => exact .passed (List.forall_mem_cons.mpr ⟨hc, hnone⟩)
  | bare hnone hreturns =>
    rw [← List.cons_append]
    exact .bare (List.forall_mem_cons.mpr ⟨hc, hnone⟩) hreturns
  | value hnone hreturns hvalue =>
    rw [← List.cons_append]
    exact .value (List.forall_mem_cons.mpr ⟨hc, hnone⟩) hreturns hvalue

/-- The answer of an activation that executes a return next. -/
theorem answer_of_ret {keyword : Token} {value : Option Expr} {stack : List Task} {w w' : World}
    {flow : Flow} (houter : outermost? stack = none)
    (h : run natives fuel ⟨.exec (.ret keyword value), stack, w⟩ = some (.ok flow, w'))
    (later : List Config) :
    Answer natives base (Config.over base ⟨.exec (.ret keyword value), stack, w⟩ :: later)
      flow.result := by
  have hnone : ∀ c ∈ ([] : List Config), ∀ value, ¬ c.Returns base value :=
    fun _ hmem => absurd hmem List.not_mem_nil
  have hreturns : (Config.over base ⟨.exec (.ret keyword value), stack, w⟩).Returns base value :=
    Config.returns_over.mpr ⟨houter, keyword, rfl⟩
  have hown : callsOn stack = 0 := outermost?_eq_none_iff.mp houter
  rw [← List.nil_append (_ :: later)]
  cases value with
  | some e =>
    obtain ⟨n, w₁, hvalue⟩ := run_ret hown h
    exact .value hnone hreturns hvalue
  | none =>
    cases fuel with
    | zero => cases h
    | succ fuel =>
      have hflow := run_returning hown h
      cases hflow
      exact .bare hnone hreturns

/-- **The answer of a body that comes to an end.** The induction follows the run. -/
theorem answer_of_run {flow : Flow} {w : World} (hc : ¬ c.Leaving)
    (h : run natives fuel c = some (.ok flow, w)) :
    Answer natives base ((trace natives fuel c).map (Config.over base)) flow.result := by
  induction fuel generalizing c with
  | zero => cases h
  | succ fuel ih =>
    by_cases hreturns : outermost? c.stack = none ∧
        ∃ keyword value, c.focus = .exec (.ret keyword value)
    · obtain ⟨houter, keyword, value, hfocus⟩ := hreturns
      obtain ⟨focus, stack, w₀⟩ := c
      cases hfocus
      exact answer_of_ret houter h _
    · have hfirst : ∀ value, ¬ (c.over base).Returns base value := by
        intro value hvalue
        obtain ⟨houter, keyword, hfocus⟩ := Config.returns_over.mp hvalue
        exact hreturns ⟨houter, keyword, value, hfocus⟩
      rw [run_succ] at h
      rw [trace_succ]
      cases hstep : step natives c with
      | config c' =>
        rw [hstep] at h
        refine (ih ?_ h).cons hfirst
        intro hc'
        cases step_phase hstep with
        | same hiff => exact hc (hiff.mp hc')
        | returned houter hfocus _ => exact hreturns ⟨houter, _, _, hfocus⟩
        | raised houter hfocus =>
          obtain ⟨focus, stack, w'⟩ := c'
          cases hfocus
          have hresult := run_raise h
          cases hresult
      | halt result w' =>
        rw [hstep] at h
        cases h
        rw [eq_of_step_halt hstep] at hc
        cases flow with
        | completed =>
          refine .passed ?_
          intro c' hc'
          rw [List.map_singleton, List.mem_singleton] at hc'
          rw [hc']
          exact hfirst
        | returning v => exact absurd trivial hc

/-- What follows a configuration in a trace is the trace of the next step. -/
theorem trace_after {start c : Config} {before later : List Config}
    (h : trace natives fuel start = before ++ c :: later) :
    later = [] ∨ ∃ c' n, step natives c = .config c' ∧ later = trace natives n c' := by
  induction before generalizing fuel start with
  | nil =>
    cases fuel with
    | zero => cases h
    | succ fuel =>
      rw [trace_succ, List.nil_append, List.cons.injEq] at h
      obtain ⟨rfl, hlater⟩ := h
      cases hstep : step natives start with
      | config c' =>
        rw [hstep] at hlater
        exact Or.inr ⟨c', fuel, rfl, hlater.symm⟩
      | halt result w =>
        rw [hstep] at hlater
        exact Or.inl hlater.symm
  | cons first before ih =>
    cases fuel with
    | zero => cases h
    | succ fuel =>
      rw [trace_succ, List.cons_append, List.cons.injEq] at h
      obtain ⟨-, hrest⟩ := h
      cases hstep : step natives start with
      | config c' =>
        rw [hstep] at hrest
        exact ih hrest
      | halt result w =>
        rw [hstep] at hrest
        simp at hrest

/-- **After a return nothing but leaving.** -/
theorem onlyLeaves_trace (fuel : Nat) (start : Config) :
    OnlyLeaves base ((trace natives fuel start).map (Config.over base)) := by
  intro before c later value hsplit hreturns c' hc' hown
  obtain ⟨before, rest, htrace, rfl, hrest⟩ := List.map_eq_append_iff.mp hsplit
  obtain ⟨c, later, rfl, rfl, rfl⟩ := List.map_eq_cons_iff.mp hrest
  obtain ⟨c', hmem, rfl⟩ := List.mem_map.mp hc'
  obtain ⟨houter, keyword, hfocus⟩ := Config.returns_over.mp hreturns
  have hleaving : c'.Leaving := by
    rcases trace_after htrace with rfl | ⟨next, n, hstep, rfl⟩
    · cases hmem
    · refine trace_induction (fun _ _ hstep hc => hc.step hstep) n ?_ c' hmem
      obtain ⟨focus, stack, w⟩ := c
      cases hfocus
      cases hstep
      exact leaving_stepExec_ret houter keyword value w
  rwa [Config.Leaving, outermost?_eq_none_iff.mpr (Config.own_over.mp hown)] at hleaving

end Nya.Machine
