import Mathlib.Data.List.Chain
import Nya.Proofs.Machine.Trace

/-!
# Balance

A block and a call leave a task behind that gives back the environment, and a call its place in the
count. Whatever a step does, it does one of three things to the stack: it leaves it alone, it puts a
task on it that gives back where the step came from, or it drops a task and takes what that gives
back. So what the tasks on the stack give back together never changes, whichever way they are left.

* `Machine.step_turn` says what a step does to the stack, the environment and the count
* `Machine.run_place` for runs, `Machine.place_of_stack_eq` for parts of a run
* `Machine.trace_calls` and `Machine.trace_calls_le` for the count during a run
-/

namespace Nya.Machine

/-- Where a world is: its current environment, and how many calls are in progress. -/
def World.place (w : World) : Env × Nat := (w.env, w.calls)

/-- What leaving a task makes of the place. -/
def Task.restore : Task → Env × Nat → Env × Nat
  | .leave env, (_, calls) => (env, calls)
  | .back env _, (_, calls) => (env, calls - 1)
  | .sequence _, place | .again _ _, place => place

/-- Whether a task is the end of a call. -/
def Task.isCall : Task → Bool
  | .back _ _ => true
  | _ => false

/-- What leaving all of some tasks makes of the place. -/
def restoreAll (tasks : List Task) (place : Env × Nat) : Env × Nat :=
  tasks.foldl (fun place task => task.restore place) place

/-- How many calls are in progress according to a stack. -/
def callsOn (stack : List Task) : Nat := stack.countP Task.isCall

theorem callsOn_cons (task : Task) (stack : List Task) :
    callsOn (task :: stack) = callsOn stack + callsOn [task] := by
  simp [callsOn, List.countP_cons]

/-! ## Steps -/

/-- What a step does to the stack and the place. -/
inductive Turn (c c' : Config) : Prop
  /-- Nothing. -/
  | keep (stack : c'.stack = c.stack) (place : c'.world.place = c.world.place)
  /-- It puts a task on the stack that gives back the place. A call counts, within the limit. -/
  | push (task : Task) (stack : c'.stack = task :: c.stack)
    (place : task.restore c'.world.place = c.world.place)
    (calls : c'.world.calls = c.world.calls + callsOn [task])
    (limit : c'.world.calls ≤ c.world.calls ∨ c'.world.calls ≤ maxCalls)
  /-- It leaves a task. -/
  | pop (task : Task) (stack : c.stack = task :: c'.stack)
    (place : c'.world.place = task.restore c.world.place)

variable {natives : Array Native}

theorem World.bindParams_calls : ∀ (params : List Token) (args : List Value) (w : World),
    (w.bindParams params args).calls = w.calls
  | [], _, _ | _ :: _, [], _ => rfl
  | _ :: params, _ :: args, w => by rw [bindParams, bindParams_calls params args]; rfl

theorem turn_stepEval (e : Expr) (context : Context) (stack : List Task) (w : World) :
    Turn ⟨.eval e context, stack, w⟩ (stepEval e context stack w) := by
  cases e with
  | read target =>
    rw [stepEval]
    cases w.read? target with
    | some v => exact .keep rfl rfl
    | none => exact .keep rfl rfl
  | _ => exact .keep rfl rfl

theorem turn_enterCall (focus : Focus) (callee : Value) (args : List Value) (paren : Token)
    (context : Context) (stack : List Task) {w : World} (hlimit : w.calls < maxCalls) :
    Turn ⟨focus, stack, w⟩ (enterCall natives callee args paren context stack w) := by
  cases callee with
  | closure d env =>
    have hcalls : (enterCall natives (.closure d env) args paren context stack w).world.calls =
        w.calls + 1 := World.bindParams_calls _ _ _
    refine .push (.back w.env context) rfl ?_ hcalls (Or.inr (hcalls ▸ hlimit))
    simp only [Task.restore, World.place, hcalls, Nat.add_sub_cancel]
  | native f =>
    simp only [enterCall]
    cases natives[f.id]? with
    | none => exact .keep rfl rfl
    | some native =>
      dsimp only [callNative]
      split
      · exact .keep rfl rfl
      · exact .keep rfl rfl
  | _ => exact .keep rfl rfl

/-- A call raises a fault at once, or is made below the limit. -/
theorem call_cases (callee : Value) (args : List Value) (paren : Token) (context : Context)
    (stack : List Task) (w : World) :
    (∃ error, call natives callee args paren context stack w = ⟨.raise error, stack, w⟩) ∨
      w.calls < maxCalls ∧ call natives callee args paren context stack w =
        enterCall natives callee args paren context stack w := by
  unfold call
  split
  · exact Or.inl ⟨_, rfl⟩
  · split
    · exact Or.inl ⟨_, rfl⟩
    · split
      · exact Or.inl ⟨_, rfl⟩
      · next hlimit => exact Or.inr ⟨Nat.not_le.mp hlimit, rfl⟩

theorem turn_call (focus : Focus) (callee : Value) (args : List Value) (paren : Token)
    (context : Context) (stack : List Task) (w : World) :
    Turn ⟨focus, stack, w⟩ (call natives callee args paren context stack w) := by
  rcases call_cases callee args paren context stack w with ⟨error, heq⟩ | ⟨hlimit, heq⟩
  · rw [heq]
    exact .keep rfl rfl
  · rw [heq]
    exact turn_enterCall focus callee args paren context stack hlimit

theorem turn_nextArgument (focus : Focus) (callee : Value) (done : List Value) (rest : List Expr)
    (paren : Token) (context : Context) (stack : List Task) (w : World) :
    Turn ⟨focus, stack, w⟩ (nextArgument natives callee done rest paren context stack w) := by
  cases rest with
  | nil => exact turn_call focus callee done.reverse paren context stack w
  | cons e rest => exact .keep rfl rfl

theorem turn_yield (focus : Focus) (result : Except RuntimeError Value) (context : Context)
    (stack : List Task) (w : World) : Turn ⟨focus, stack, w⟩ (yield result context stack w) := by
  cases result with
  | ok v => exact .keep rfl rfl
  | error e => exact .keep rfl rfl

theorem turn_fill (focus : Focus) (v : Value) (hole : Hole) (context : Context)
    (stack : List Task) (w : World) :
    Turn ⟨focus, stack, w⟩ (fill natives v hole context stack w) := by
  cases hole with
  | assign target =>
    rw [fill]
    cases w.holder? target with
    | some holder => exact .keep rfl rfl
    | none => exact .keep rfl rfl
  | unary operator => exact turn_yield focus _ context stack w
  | binaryLeft operator right => exact .keep rfl rfl
  | binaryRight left operator => exact turn_yield focus _ context stack w
  | logical operator right =>
    rw [fill]
    split
    · exact .keep rfl rfl
    · exact .keep rfl rfl
  | callee arguments paren => exact turn_nextArgument focus v [] arguments paren context stack w
  | argument callee done rest paren =>
    exact turn_nextArgument focus callee (v :: done) rest paren context stack w

theorem turn_fulfil (focus : Focus) (v : Value) (purpose : Purpose) (stack : List Task)
    (w : World) : Turn ⟨focus, stack, w⟩ (fulfil v purpose stack w) := by
  cases purpose with
  | choose thenBranch elseBranch =>
    simp only [fulfil]
    split
    · exact .keep rfl rfl
    · cases elseBranch with
      | some s => exact .keep rfl rfl
      | none => exact .keep rfl rfl
  | iterate condition body =>
    rw [fulfil]
    split
    · exact .push (.again condition body) rfl rfl rfl (Or.inl (Nat.le_refl _))
    · exact .keep rfl rfl
  | _ => exact .keep rfl rfl

theorem turn_stepGive (v : Value) (context : Context) (stack : List Task) (w : World) :
    Turn ⟨.give v context, stack, w⟩ (stepGive natives v context stack w) := by
  obtain ⟨holes, purpose⟩ := context
  cases holes with
  | nil => exact turn_fulfil _ v purpose stack w
  | cons hole holes => exact turn_fill _ v hole ⟨holes, purpose⟩ stack w

theorem turn_stepExec (s : Stmt) (stack : List Task) (w : World) :
    Turn ⟨.exec s, stack, w⟩ (stepExec s stack w) := by
  cases s with
  | var name init => cases init <;> exact .keep rfl rfl
  | ret keyword value => cases value <;> exact .keep rfl rfl
  | block body => exact .push (.leave w.env) rfl rfl rfl (Or.inl (Nat.le_refl _))
  | _ => exact .keep rfl rfl

/-- A task is left in the same way by a statement that has ended and by a fault. -/
theorem turn_resume (flow : Flow) (task : Task) (stack : List Task) (w : World) :
    Turn ⟨.finish flow, task :: stack, w⟩ (resume flow task stack w) := by
  cases task <;> cases flow <;> exact .pop _ rfl rfl

theorem turn_unwind (error : RuntimeError) (task : Task) (stack : List Task) (w : World) :
    Turn ⟨.raise error, task :: stack, w⟩ (unwind error task stack w) := by
  cases task <;> exact .pop _ rfl rfl

/-- **What a step does to the stack, the environment and the count of calls.** -/
theorem step_turn {c c' : Config} (h : step natives c = .config c') : Turn c c' := by
  obtain ⟨focus, stack, w⟩ := c
  cases focus with
  | eval e context =>
    cases h
    exact turn_stepEval e context stack w
  | give v context =>
    cases h
    exact turn_stepGive v context stack w
  | exec s =>
    cases h
    exact turn_stepExec s stack w
  | execAll ss =>
    cases ss with
    | nil =>
      cases h
      exact .keep rfl rfl
    | cons s ss =>
      cases h
      exact .push (.sequence ss) rfl rfl rfl (Or.inl (Nat.le_refl _))
  | finish flow =>
    cases stack with
    | nil => cases h
    | cons task stack =>
      cases h
      exact turn_resume flow task stack w
  | raise error =>
    cases stack with
    | nil => cases h
    | cons task stack =>
      cases h
      exact turn_unwind error task stack w

/-! ## What the stack gives back -/

/--
What the tasks above `base` give back stays the same, as long as no task of `base` is left.
-/
theorem Turn.restoreAll {c c' : Config} (h : Turn c c') {top base : List Task}
    (hstack : c.stack = top ++ base) (hbase : base <:+ c'.stack) :
    ∃ top', c'.stack = top' ++ base ∧
      restoreAll top' c'.world.place = restoreAll top c.world.place := by
  cases h with
  | keep stack place => exact ⟨top, stack.trans hstack, by rw [place]⟩
  | push task stack place calls limit =>
    refine ⟨task :: top, by rw [stack, hstack, List.cons_append], ?_⟩
    rw [Machine.restoreAll, List.foldl_cons, place]
    rfl
  | pop task stack place =>
    cases top with
    | nil =>
      -- The task that is left would be one of `base`.
      have hlength := hbase.length_le
      rw [List.nil_append] at hstack
      rw [← hstack, stack, List.length_cons] at hlength
      omega
    | cons task' top =>
      rw [stack, List.cons_append, List.cons.injEq] at hstack
      obtain ⟨rfl, htop⟩ := hstack
      exact ⟨top, htop, by rw [place]; rfl⟩

/-- **A run gives back the place that its stack would have given back at the start.** -/
theorem run_place : ∀ (fuel : Nat) {c : Config} {result : Except RuntimeError Flow} {w : World},
    run natives fuel c = some (result, w) → w.place = restoreAll c.stack c.world.place
  | 0, _, _, _, h => by cases h
  | fuel + 1, c, result, w, h => by
    rw [run_succ] at h
    cases hstep : step natives c with
    | config c' =>
      rw [hstep] at h
      obtain ⟨top, htop, hplace⟩ :=
        (step_turn hstep).restoreAll (List.append_nil c.stack).symm (List.nil_suffix)
      rw [List.append_nil] at htop
      rw [run_place fuel h, htop, hplace]
    | halt result' w' =>
      rw [hstep] at h
      cases h
      unfold step at hstep
      split at hstep <;> cases hstep <;> rfl

/-! ## Parts of a run -/

/-- Each configuration of a trace is a step away from the next one. -/
theorem trace_isChain : ∀ (fuel : Nat) (c : Config),
    (trace natives fuel c).IsChain fun c c' => step natives c = .config c'
  | 0, _ => .nil
  | fuel + 1, c => by
    rw [trace_succ]
    cases hstep : step natives c with
    | halt result w => exact .singleton c
    | config c' =>
      have ih := trace_isChain fuel c'
      cases fuel with
      | zero => exact .singleton c
      | succ fuel => exact .cons_cons hstep ih

/-- The tasks above `base` give back the same at all configurations that do not leave `base`. -/
theorem restoreAll_of_isChain {base : List Task} : ∀ {between : List Config} {c c' : Config}
    {top : List Task},
    (c :: (between ++ [c'])).IsChain (fun c c' => step natives c = .config c') →
    (∀ m ∈ between, base <:+ m.stack) → base <:+ c'.stack → c.stack = top ++ base →
    ∃ top', c'.stack = top' ++ base ∧
      restoreAll top' c'.world.place = restoreAll top c.world.place
  | [], c, c', top, hchain, _, hlast, hstack => by
    have hstep : step natives c = .config c' := by simpa using hchain
    exact (step_turn hstep).restoreAll hstack hlast
  | m :: between, c, c', top, hchain, hbetween, hlast, hstack => by
    rw [List.cons_append, List.isChain_cons_cons] at hchain
    obtain ⟨top₁, hstack₁, hplace₁⟩ :=
      (step_turn hchain.1).restoreAll hstack (hbetween m List.mem_cons_self)
    obtain ⟨top', hstack', hplace'⟩ := restoreAll_of_isChain hchain.2
      (fun m' hm => hbetween m' (List.mem_cons_of_mem _ hm)) hlast hstack₁
    exact ⟨top', hstack', hplace'.trans hplace₁⟩

/--
**Whatever is done above a stack, the place is the same when it is the whole stack again.** The two
configurations may be the start and the end of any statement, expression, block or call.
-/
theorem place_of_stack_eq {fuel : Nat} {start c c' : Config} {before between after : List Config}
    (htrace : trace natives fuel start = before ++ c :: between ++ c' :: after)
    (hbetween : ∀ m ∈ between, c.stack <:+ m.stack) (hstack : c'.stack = c.stack) :
    c'.world.place = c.world.place := by
  have hsplit : before ++ c :: between ++ c' :: after =
      before ++ (c :: (between ++ [c']) ++ after) := by simp
  have hchain : (trace natives fuel start).IsChain fun c c' => step natives c = .config c' :=
    trace_isChain fuel start
  rw [htrace, hsplit] at hchain
  have hbase : c.stack <:+ c'.stack := hstack ▸ List.suffix_refl _
  obtain ⟨top, htop, hplace⟩ := restoreAll_of_isChain hchain.right_of_append.left_of_append
    hbetween hbase (List.nil_append c.stack).symm
  rw [hstack] at htop
  obtain rfl : top = [] := List.self_eq_append_left.mp htop
  exact hplace

/-! ## The count of calls -/

theorem Turn.calls {c c' : Config} (h : Turn c c') {entry : Nat}
    (hc : c.world.calls = entry + callsOn c.stack) :
    c'.world.calls = entry + callsOn c'.stack := by
  cases h with
  | keep stack place =>
    rw [stack, ← hc]
    exact congrArg Prod.snd place
  | push task stack place calls limit =>
    rw [calls, hc, stack, callsOn_cons task c.stack, Nat.add_assoc]
  | pop task stack place =>
    have hcalls : c'.world.calls = (task.restore c.world.place).2 := congrArg Prod.snd place
    rw [hcalls]
    rw [stack, callsOn_cons] at hc
    cases task with
    | back env caller =>
      have hone : callsOn [Task.back env caller] = 1 := rfl
      simp only [Task.restore, World.place]
      omega
    | _ => exact hc

theorem Turn.calls_le {c c' : Config} (h : Turn c c') :
    c'.world.calls ≤ c.world.calls ∨ c'.world.calls ≤ maxCalls := by
  cases h with
  | keep stack place => exact Or.inl (Nat.le_of_eq (congrArg Prod.snd place))
  | push task stack place calls limit => exact limit
  | pop task stack place =>
    have hcalls : c'.world.calls = (task.restore c.world.place).2 := congrArg Prod.snd place
    rw [hcalls]
    cases task with
    | back env caller => exact Or.inl (Nat.sub_le _ _)
    | _ => exact Or.inl (Nat.le_refl _)

/-- What holds at the start and is kept by every step holds of every configuration of a trace. -/
theorem trace_induction {motive : Config → Prop}
    (step : ∀ c c', step natives c = .config c' → motive c → motive c') :
    ∀ (fuel : Nat) {c : Config}, motive c → ∀ c' ∈ trace natives fuel c, motive c'
  | 0, _, _, _, hmem => by cases hmem
  | fuel + 1, c, hc, c', hmem => by
    rw [trace_succ, List.mem_cons] at hmem
    rcases hmem with rfl | hmem
    · exact hc
    · cases hstep : Machine.step natives c with
      | halt result w =>
        rw [hstep] at hmem
        cases hmem
      | config c₁ =>
        rw [hstep] at hmem
        exact trace_induction step fuel (step c c₁ hstep hc) c' hmem

/-- **The count goes up and down with the calls on the stack.** -/
theorem trace_calls {fuel : Nat} {focus : Focus} {w : World} {c : Config}
    (h : c ∈ trace natives fuel ⟨focus, [], w⟩) : c.world.calls = w.calls + callsOn c.stack :=
  trace_induction (motive := fun c => c.world.calls = w.calls + callsOn c.stack)
    (fun _ _ hstep hc => (step_turn hstep).calls hc) fuel rfl c h

/-- **A count within the limit stays within it.** -/
theorem trace_calls_le {fuel : Nat} {focus : Focus} {w : World} {c : Config}
    (h : c ∈ trace natives fuel ⟨focus, [], w⟩) (hw : w.calls ≤ maxCalls) :
    c.world.calls ≤ maxCalls := by
  refine trace_induction (motive := fun c => c.world.calls ≤ maxCalls) ?_ fuel hw c h
  intro c c' hstep hc
  rcases (step_turn hstep).calls_le with hle | hle
  · exact Nat.le_trans hle hc
  · exact hle

end Nya.Machine
