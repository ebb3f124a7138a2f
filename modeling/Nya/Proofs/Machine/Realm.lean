import Nya.Proofs.Machine.Balance
import Nya.Proofs.Machine.History
import Nya.Proofs.Tree.Arena

/-!
# What a run stays among

A run makes no code of its own: it executes parts of the program, and the bodies of functions that
it finds in frames which it can reach. So if the program and those functions have some property that
passes on to the parts of a tree, everything that is ever executed has it.

A *realm* is such a property, together with the frames that may be reached. Frames that do not exist
yet may always be reached, so the realm stays the same for the whole run.

* `Realm`, and `Config.Keeps` for configurations that stay in it
* `Machine.step_keeps` for a step, `Machine.interpret_keeps` for a program
* `Session.Keeps.trace` for everything that a session passes through
-/

namespace Nya

/-! ## Realms -/

/-- The fault is not about an operator that there is not. -/
def RuntimeCause.Proper : RuntimeCause → Prop
  | .invalidUnary | .invalidBinary => False
  | _ => True

theorem RuntimeCause.Proper.ne {cause : RuntimeCause} (h : cause.Proper) :
    cause ≠ .invalidUnary ∧ cause ≠ .invalidBinary := by
  constructor
  · rintro rfl
    exact h
  · rintro rfl
    exact h

/--
A property of code that passes on to its parts, the faults that such code may raise, and frames. A
fault about an operator has to be allowed by the operator, all others are.
-/
structure Realm where
  expr : Expr → Prop
  stmt : Stmt → Prop
  unary : Token → Prop
  binary : Token → Prop
  fault : RuntimeCause → Prop
  frame : FrameId → Prop
  expr_parts : ∀ {e}, expr e → ∀ part ∈ e.parts, expr part
  stmt_exprs : ∀ {s}, stmt s → ∀ e ∈ s.exprs, expr e
  stmt_parts : ∀ {s}, stmt s → ∀ part ∈ s.parts, stmt part
  unary_of_expr : ∀ {id operator right}, expr (.unary id operator right) → unary operator
  binary_of_expr : ∀ {id left operator right}, expr (.binary id left operator right) →
    binary operator
  fault_unary : ∀ {operator v e}, unary operator → applyUnary operator v = .error e → fault e.cause
  fault_binary : ∀ {operator u v e}, binary operator → applyBinary operator u v = .error e →
    fault e.cause
  fault_of_proper : ∀ {cause}, cause.Proper → fault cause

variable {r : Realm}

/-- Every frame of the chain is in the realm. -/
def Env.Keeps (r : Realm) (env : Env) : Prop := ∀ f ∈ env.frames, r.frame f

/-- A function has its body and its frames in the realm. -/
def Value.Keeps (r : Realm) : Value → Prop
  | .closure d env => (∀ s ∈ d.body, r.stmt s) ∧ env.Keeps r
  | _ => True

/-- A value that is bound, or the body of a function that is, is in the realm. -/
def Binding.Keeps (r : Realm) : Binding → Prop
  | .value v => v.Keeps r
  | .function d => ∀ s ∈ d.body, r.stmt s

/-- What is bound in a frame of the realm stays in it. -/
def Store.Keeps (r : Realm) (s : Store) : Prop :=
  ∀ f, r.frame f → ∀ name b, (s.frame f).get? name = some b → b.Keeps r

/-- A native yields values of the realm, as long as it is given such. -/
def Native.Keeps (r : Realm) (native : Native) : Prop :=
  ∀ globals args console v, (∀ name u, globals name = some u → u.Keeps r) →
    (∀ u ∈ args, u.Keeps r) → (native.run globals args console).1 = .ok v → v.Keeps r

/-- An honest native makes up no functions, so it keeps to any realm. -/
theorem Native.Honest.keeps {native : Native} (h : native.Honest) (r : Realm) :
    native.Keeps r := by
  intro globals args console v hglobals hargs hrun
  cases v with
  | closure d env =>
    rcases h globals args console d env hrun with hmem | ⟨name, hname⟩
    · exact hargs _ hmem
    · exact hglobals name _ hname
  | _ => trivial

namespace Env

/-- The innermost frame of a chain in the realm is in the realm. -/
theorem Keeps.frame {env : Env} (h : env.Keeps r) : r.frame env.frame := by
  cases env with
  | root f => exact h f List.mem_cons_self
  | child f outer => exact h f List.mem_cons_self

/-- So is any chain further out. -/
theorem Keeps.ancestor {env : Env} (h : env.Keeps r) : ∀ n, (env.ancestor n).Keeps r := by
  induction env with
  | root f =>
    intro n
    cases n <;> exact h
  | child f outer ih =>
    intro n
    cases n with
    | zero => exact h
    | succ n => exact ih (fun f' hf => h f' (List.mem_cons_of_mem _ hf)) n

end Env

namespace Store

variable {s : Store}

/-- What is read in a chain of the realm was bound in one of its frames, and so is in the realm. -/
theorem Keeps.read? (h : s.Keeps r) {env : Env} (henv : env.Keeps r) {name : String} {v : Value}
    (hv : s.read? env name = some v) : v.Keeps r := by
  obtain ⟨b, hb, rfl⟩ := Option.map_eq_some_iff.mp hv
  have hkeeps := h env.frame henv.frame name b hb
  cases b with
  | value v => exact hkeeps
  | function d => exact ⟨hkeeps, henv⟩

/-- Binding something of the realm in any frame keeps the store in it. -/
theorem Keeps.bind (h : s.Keeps r) (f : FrameId) (name : String) {b : Binding} (hb : b.Keeps r) :
    (s.bind f name b).Keeps r := by
  intro f' hf' name' b' hb'
  by_cases hlt : f < s.next
  · rw [get?_frame_bind hlt] at hb'
    split at hb'
    · cases hb'
      exact hb
    · exact h f' hf' name' b' hb'
  · rw [frame_bind_of_le (Nat.not_lt.mp hlt)] at hb'
    exact h f' hf' name' b' hb'

/-- A new frame has nothing bound in it. -/
theorem Keeps.push (h : s.Keeps r) : s.push.Keeps r := by
  intro f hf name b hb
  rw [frame_push] at hb
  exact h f hf name b hb

end Store

namespace Machine

/-! ## Configurations -/

/-- What a hole waits for with, values and code, is in the realm. -/
def Hole.Keeps (r : Realm) : Hole → Prop
  | .assign _ => True
  | .unary operator => r.unary operator
  | .binaryLeft operator right => r.binary operator ∧ r.expr right
  | .binaryRight left operator => left.Keeps r ∧ r.binary operator
  | .logical _ right => r.expr right
  | .callee arguments _ => ∀ e ∈ arguments, r.expr e
  | .argument f done rest _ =>
    f.Keeps r ∧ (∀ v ∈ done, v.Keeps r) ∧ ∀ e ∈ rest, r.expr e

/-- The statements that a value decides between are in the realm. -/
def Purpose.Keeps (r : Realm) : Purpose → Prop
  | .discard | .print | .define _ | .ret => True
  | .choose thenBranch elseBranch => r.stmt thenBranch ∧ ∀ s ∈ elseBranch, r.stmt s
  | .iterate condition body => r.stmt (.loop condition body)

/-- All that is around an expression is in the realm. -/
structure Context.Keeps (r : Realm) (context : Context) : Prop where
  holes : ∀ hole ∈ context.holes, hole.Keeps r
  purpose : context.purpose.Keeps r

/-- The code of a task and the environment that it goes back to are in the realm. -/
def Task.Keeps (r : Realm) : Task → Prop
  | .sequence rest => ∀ s ∈ rest, r.stmt s
  | .again condition body => r.stmt (.loop condition body)
  | .leave env => env.Keeps r
  | .back env caller => env.Keeps r ∧ caller.Keeps r

/-- What is done next is in the realm; a fault is one that its code may raise. -/
def Focus.Keeps (r : Realm) : Focus → Prop
  | .eval e context => r.expr e ∧ context.Keeps r
  | .give v context => v.Keeps r ∧ context.Keeps r
  | .exec s => r.stmt s
  | .execAll ss => ∀ s ∈ ss, r.stmt s
  | .finish .completed => True
  | .finish (.returning v) => v.Keeps r
  | .raise error => r.fault error.cause

/-- The world is in the realm, with all the frames that are still to be made. -/
structure World.Keeps (r : Realm) (w : World) : Prop where
  store : w.store.Keeps r
  env : w.env.Keeps r
  globals : globals.Keeps r
  next : ∀ f, w.store.next ≤ f → r.frame f

/-- All code and all values of a configuration are in the realm. -/
structure Config.Keeps (r : Realm) (c : Config) : Prop where
  focus : c.focus.Keeps r
  stack : ∀ task ∈ c.stack, task.Keeps r
  world : c.world.Keeps r

theorem Context.Keeps.push {context : Context} (h : context.Keeps r) {hole : Hole}
    (hh : hole.Keeps r) : (context.push hole).Keeps r :=
  ⟨List.forall_mem_cons.mpr ⟨hh, h.holes⟩, h.purpose⟩

theorem Context.keeps_nil {purpose : Purpose} (h : purpose.Keeps r) :
    Context.Keeps r ⟨[], purpose⟩ :=
  ⟨List.forall_mem_nil _, h⟩

namespace World

variable {w : World}

theorem Keeps.lookup? (h : w.Keeps r) {name : String} {v : Value}
    (hv : w.store.lookup? Machine.globals name = some v) : v.Keeps r := by
  obtain ⟨holder, hholder, hread⟩ := Option.bind_eq_some_iff.mp hv
  rw [Machine.globals, Store.holder?] at hholder
  split at hholder
  · cases hholder
    exact h.store.read? h.globals hread
  · cases hholder

theorem Keeps.read? (h : w.Keeps r) {target : Reference} {v : Value}
    (hv : w.read? target = some v) : v.Keeps r := by
  unfold World.read? at hv
  split at hv
  · exact h.store.read? (h.env.ancestor _) hv
  · exact h.lookup? hv

/-- A binding of the realm may be put into any frame. -/
theorem Keeps.bind (h : w.Keeps r) (env : Env) (name : String) {b : Binding} (hb : b.Keeps r) :
    World.Keeps r { w with store := w.store.bind env.frame name b } := by
  refine ⟨h.store.bind _ _ hb, h.env, h.globals, ?_⟩
  intro f hf
  rw [Store.next_bind] at hf
  exact h.next f hf

theorem Keeps.leave (h : w.Keeps r) {env : Env} (henv : env.Keeps r) : (w.leave env).Keeps r :=
  ⟨h.store, henv, h.globals, h.next⟩

/-- The new frame is one of those that were still to be made. -/
theorem Keeps.enter (h : w.Keeps r) {outer : Env} (houter : outer.Keeps r) :
    (w.enter outer).Keeps r := by
  refine ⟨h.store.push, ?_, h.globals, ?_⟩
  · exact List.forall_mem_cons.mpr ⟨h.next _ (Nat.le_refl _), houter⟩
  · intro f hf
    refine h.next f (Nat.le_trans (Nat.le_succ _) ?_)
    rwa [World.enter, Store.next_push] at hf

/-- Parameters are bound to arguments, which are in the realm. -/
theorem Keeps.bindParams (params : List Token) : ∀ {args : List Value} {w : World}, w.Keeps r →
    (∀ v ∈ args, v.Keeps r) → (w.bindParams params args).Keeps r := by
  induction params with
  | nil =>
    intro args w h _
    exact h
  | cons param params ih =>
    intro args w h hargs
    cases args with
    | nil => exact h
    | cons arg args =>
      rw [List.forall_mem_cons] at hargs
      rw [World.bindParams]
      exact ih (h.bind w.env _ hargs.1) hargs.2

end World

/-! ## Steps -/

/-- The operators yield no functions. -/
theorem keeps_applyUnary {operator : Token} {right v : Value}
    (h : applyUnary operator right = .ok v) : v.Keeps r := by
  unfold applyUnary at h
  split at h
  · cases h
    trivial
  · split at h
    · cases h
      trivial
    · cases h
  · cases h

/-- An operator yields no function, and all other values are in any realm. -/
theorem keeps_applyBinary {operator : Token} {left right v : Value}
    (h : applyBinary operator left right = .ok v) : v.Keeps r := by
  unfold applyBinary at h
  split at h
  · cases h
    trivial
  · cases h
    trivial
  · unfold add at h
    split at h <;> cases h <;> trivial
  · split at h
    · unfold arithmetic at h
      split at h <;> cases h <;> trivial
    · cases h

section

variable {natives : Array Native} {context : Context} {stack : List Task} {w : World}
  (hstack : ∀ task ∈ stack, task.Keeps r) (hw : w.Keeps r)

include hstack hw in
theorem keeps_raise {token : Token} {cause : RuntimeCause} (hcause : cause.Proper) :
    Config.Keeps r ⟨.raise (.ofToken token cause), stack, w⟩ :=
  ⟨r.fault_of_proper hcause, hstack, hw⟩

/-- Evaluation goes on with a part of the expression, or yields what the world has bound. -/
theorem keeps_stepEval {e : Expr} (h : Config.Keeps r ⟨.eval e context, stack, w⟩) :
    (stepEval e context stack w).Keeps r := by
  obtain ⟨⟨he, hcontext⟩, hstack, hw⟩ := h
  have hpart := r.expr_parts he
  cases e with
  | literal id value =>
    refine ⟨⟨?_, hcontext⟩, hstack, hw⟩
    cases value <;> trivial
  | read target =>
    rw [stepEval]
    cases hv : w.read? target with
    | some v => exact ⟨⟨hw.read? hv, hcontext⟩, hstack, hw⟩
    | none => exact keeps_raise hstack hw trivial
  | assign target value =>
    exact ⟨⟨hpart value (by simp [Expr.parts]), hcontext.push trivial⟩, hstack, hw⟩
  | unary id operator right =>
    have hoperator : Hole.Keeps r (.unary operator) := r.unary_of_expr he
    exact ⟨⟨hpart right (by simp [Expr.parts]), hcontext.push hoperator⟩, hstack, hw⟩
  | binary id left operator right =>
    have hright : Hole.Keeps r (.binaryLeft operator right) :=
      ⟨r.binary_of_expr he, hpart right (by simp [Expr.parts])⟩
    exact ⟨⟨hpart left (by simp [Expr.parts]), hcontext.push hright⟩, hstack, hw⟩
  | logical id left operator right =>
    have hright : Hole.Keeps r (.logical operator right) := hpart right (by simp [Expr.parts])
    exact ⟨⟨hpart left (by simp [Expr.parts]), hcontext.push hright⟩, hstack, hw⟩
  | group id inner => exact ⟨⟨hpart inner (by simp [Expr.parts]), hcontext⟩, hstack, hw⟩
  | call id callee arguments paren =>
    have harguments : Hole.Keeps r (.callee arguments paren) :=
      fun e he => hpart e (by simp [Expr.parts, he])
    exact ⟨⟨hpart callee (by simp [Expr.parts]), hcontext.push harguments⟩, hstack, hw⟩

section

variable (hcontext : context.Keeps r)
include hstack hw hcontext

/-- A native that is called yields a value of the realm, or a fault that no operator raises. -/
theorem keeps_callNative {native : Native} (hn : native.Keeps r) {args : List Value}
    (paren : Token) (hargs : ∀ v ∈ args, v.Keeps r) :
    (callNative native args paren context stack w).Keeps r := by
  unfold callNative
  cases hrun : native.run w.global? args w.console with
  | mk result console =>
    have hw' : World.Keeps r { w with console } := ⟨hw.store, hw.env, hw.globals, hw.next⟩
    cases result with
    | error message => exact keeps_raise hstack hw' trivial
    | ok v =>
      have hv : v.Keeps r :=
        hn w.global? args w.console v (fun _ _ => hw.lookup?) hargs (by rw [hrun])
      exact ⟨⟨hv, hcontext⟩, hstack, hw'⟩

/-- A result is in the realm if its value is, or else its fault. -/
theorem keeps_yield {result : Except RuntimeError Value} (hok : ∀ v, result = .ok v → v.Keeps r)
    (herror : ∀ e, result = .error e → r.fault e.cause) :
    (yield result context stack w).Keeps r := by
  cases result with
  | ok v => exact ⟨⟨hok v rfl, hcontext⟩, hstack, hw⟩
  | error e => exact ⟨herror e rfl, hstack, hw⟩

variable (hn : ∀ n ∈ natives, n.Keeps r)
include hn

/-- A call goes on with the body of a function, which was in the realm when the function was
made. -/
theorem keeps_enterCall {callee : Value} {args : List Value} (paren : Token)
    (hcallee : callee.Keeps r) (hargs : ∀ v ∈ args, v.Keeps r) :
    (enterCall natives callee args paren context stack w).Keeps r := by
  cases callee with
  | closure d env =>
    have hback : Task.Keeps r (.back w.env context) := ⟨hw.env, hcontext⟩
    have hcounted : World.Keeps r { w with calls := w.calls + 1 } :=
      ⟨hw.store, hw.env, hw.globals, hw.next⟩
    exact ⟨hcallee.1, List.forall_mem_cons.mpr ⟨hback, hstack⟩,
      (hcounted.enter hcallee.2).bindParams d.params hargs⟩
  | native f =>
    simp only [enterCall]
    cases hf : natives[f.id]? with
    | none => exact keeps_raise hstack hw trivial
    | some native =>
      exact keeps_callNative hstack hw hcontext (hn native (Array.mem_of_getElem? hf)) paren hargs
  | _ => exact keeps_raise hstack hw trivial

theorem keeps_call {callee : Value} {args : List Value} (paren : Token)
    (hcallee : callee.Keeps r) (hargs : ∀ v ∈ args, v.Keeps r) :
    (call natives callee args paren context stack w).Keeps r := by
  unfold call
  split
  · exact keeps_raise hstack hw trivial
  · split
    · exact keeps_raise hstack hw trivial
    · split
      · exact keeps_raise hstack hw trivial
      · exact keeps_enterCall hstack hw hcontext hn paren hcallee hargs

/-- The arguments are evaluated one by one, and the call is entered behind the last. -/
theorem keeps_nextArgument {callee : Value} {done : List Value} {rest : List Expr}
    (paren : Token) (hcallee : callee.Keeps r) (hdone : ∀ v ∈ done, v.Keeps r)
    (hrest : ∀ e ∈ rest, r.expr e) :
    (nextArgument natives callee done rest paren context stack w).Keeps r := by
  cases rest with
  | nil =>
    exact keeps_call hstack hw hcontext hn paren hcallee fun v hv =>
      hdone v (List.mem_reverse.mp hv)
  | cons e rest =>
    rw [List.forall_mem_cons] at hrest
    have hhole : Hole.Keeps r (.argument callee done rest paren) := ⟨hcallee, hdone, hrest.2⟩
    exact ⟨⟨hrest.1, hcontext.push hhole⟩, hstack, hw⟩

/-- A value in its hole goes on with what the hole holds, which are parts of the expression. -/
theorem keeps_fill {v : Value} {hole : Hole} (hv : v.Keeps r) (hhole : hole.Keeps r) :
    (fill natives v hole context stack w).Keeps r := by
  cases hole with
  | assign target =>
    rw [fill]
    cases w.holder? target with
    | some holder => exact ⟨⟨hv, hcontext⟩, hstack, hw.bind holder _ hv⟩
    | none => exact keeps_raise hstack hw trivial
  | unary operator =>
    exact keeps_yield hstack hw hcontext (fun _ => keeps_applyUnary) fun _ => r.fault_unary hhole
  | binaryLeft operator right =>
    have hright : Hole.Keeps r (.binaryRight v operator) := ⟨hv, hhole.1⟩
    exact ⟨⟨hhole.2, hcontext.push hright⟩, hstack, hw⟩
  | binaryRight left operator =>
    exact keeps_yield hstack hw hcontext (fun _ => keeps_applyBinary) fun _ =>
      r.fault_binary hhole.2
  | logical operator right =>
    rw [fill]
    split
    · exact ⟨⟨hv, hcontext⟩, hstack, hw⟩
    · exact ⟨⟨hhole, hcontext⟩, hstack, hw⟩
  | callee arguments paren =>
    exact keeps_nextArgument hstack hw hcontext hn paren hv (List.forall_mem_nil _) hhole
  | argument callee done rest paren =>
    exact keeps_nextArgument hstack hw hcontext hn paren hhole.1
      (List.forall_mem_cons.mpr ⟨hv, hhole.2.1⟩) hhole.2.2

end

section

include hstack hw

/-- A value is put to its purpose, and a statement of the realm goes on. -/
theorem keeps_fulfil {v : Value} {purpose : Purpose} (hv : v.Keeps r)
    (hpurpose : purpose.Keeps r) : (fulfil v purpose stack w).Keeps r := by
  cases purpose with
  | discard => exact ⟨trivial, hstack, hw⟩
  | print => exact ⟨trivial, hstack, hw.store, hw.env, hw.globals, hw.next⟩
  | define name => exact ⟨trivial, hstack, hw.bind w.env _ hv⟩
  | choose thenBranch elseBranch =>
    simp only [fulfil]
    split
    · exact ⟨hpurpose.1, hstack, hw⟩
    · cases elseBranch with
      | some s => exact ⟨hpurpose.2 s rfl, hstack, hw⟩
      | none => exact ⟨trivial, hstack, hw⟩
  | iterate condition body =>
    rw [fulfil]
    split
    · exact ⟨r.stmt_parts hpurpose body (by simp [Stmt.parts]),
        List.forall_mem_cons.mpr ⟨hpurpose, hstack⟩, hw⟩
    · exact ⟨trivial, hstack, hw⟩
  | ret => exact ⟨hv, hstack, hw⟩

/-- A task that is resumed goes on with the statements that it holds. -/
theorem keeps_resume {flow : Flow} {task : Task} (hflow : Focus.Keeps r (.finish flow))
    (htask : task.Keeps r) : (resume flow task stack w).Keeps r := by
  cases task with
  | sequence rest =>
    cases flow with
    | completed => exact ⟨htask, hstack, hw⟩
    | returning v => exact ⟨hflow, hstack, hw⟩
  | again condition body =>
    cases flow with
    | completed =>
      exact ⟨⟨r.stmt_exprs htask condition (by simp [Stmt.exprs]), Context.keeps_nil htask⟩,
        hstack, hw⟩
    | returning v => exact ⟨hflow, hstack, hw⟩
  | leave env => exact ⟨hflow, hstack, hw.leave htask⟩
  | back env caller =>
    have hw' := hw.leave htask.1
    refine ⟨⟨?_, htask.2⟩, hstack, hw'.store, hw'.env, hw'.globals, hw'.next⟩
    cases flow with
    | completed => trivial
    | returning v => exact hflow

/-- A fault that passes a task takes nothing out of it but an environment. -/
theorem keeps_unwind {error : RuntimeError} {task : Task} (herror : r.fault error.cause)
    (htask : task.Keeps r) : (unwind error task stack w).Keeps r := by
  cases task with
  | sequence rest => exact ⟨herror, hstack, hw⟩
  | again condition body => exact ⟨herror, hstack, hw⟩
  | leave env => exact ⟨herror, hstack, hw.leave htask⟩
  | back env caller =>
    have hw' := hw.leave htask.1
    exact ⟨herror, hstack, hw'.store, hw'.env, hw'.globals, hw'.next⟩

end

theorem keeps_stepGive (hn : ∀ n ∈ natives, n.Keeps r) {v : Value}
    (h : Config.Keeps r ⟨.give v context, stack, w⟩) :
    (stepGive natives v context stack w).Keeps r := by
  obtain ⟨⟨hv, hcontext⟩, hstack, hw⟩ := h
  obtain ⟨holes, purpose⟩ := context
  cases holes with
  | nil => exact keeps_fulfil hstack hw hv hcontext.purpose
  | cons hole holes =>
    obtain ⟨hholes, hpurpose⟩ := hcontext
    rw [List.forall_mem_cons] at hholes
    have hrest : Context.Keeps r ⟨holes, purpose⟩ := ⟨hholes.2, hpurpose⟩
    exact keeps_fill hstack hw hrest hn hv hholes.1

/-- A statement goes on with its parts, or with a function that has its body. -/
theorem keeps_stepExec {s : Stmt} (h : Config.Keeps r ⟨.exec s, stack, w⟩) :
    (stepExec s stack w).Keeps r := by
  obtain ⟨hs, hstack, hw⟩ := h
  have hexpr := r.stmt_exprs hs
  have hpart := r.stmt_parts hs
  cases s with
  | expression e =>
    exact ⟨⟨hexpr e (by simp [Stmt.exprs]), Context.keeps_nil trivial⟩, hstack, hw⟩
  | print e => exact ⟨⟨hexpr e (by simp [Stmt.exprs]), Context.keeps_nil trivial⟩, hstack, hw⟩
  | var name init =>
    cases init with
    | none => exact ⟨trivial, hstack, hw.bind w.env _ trivial⟩
    | some e => exact ⟨⟨hexpr e (by simp [Stmt.exprs]), Context.keeps_nil trivial⟩, hstack, hw⟩
  | block body =>
    exact ⟨hpart, List.forall_mem_cons.mpr ⟨hw.env, hstack⟩, hw.enter hw.env⟩
  | branch condition thenBranch elseBranch =>
    have hbranches : Purpose.Keeps r (.choose thenBranch elseBranch) :=
      ⟨hpart thenBranch (by simp [Stmt.parts]), fun s hs => hpart s (by simp_all [Stmt.parts])⟩
    exact ⟨⟨hexpr condition (by simp [Stmt.exprs]), Context.keeps_nil hbranches⟩, hstack, hw⟩
  | loop condition body =>
    exact ⟨⟨hexpr condition (by simp [Stmt.exprs]), Context.keeps_nil hs⟩, hstack, hw⟩
  | function id name params body => exact ⟨trivial, hstack, hw.bind w.env _ hpart⟩
  | ret keyword value =>
    cases value with
    | none => exact ⟨trivial, hstack, hw⟩
    | some e => exact ⟨⟨hexpr e (by simp [Stmt.exprs]), Context.keeps_nil trivial⟩, hstack, hw⟩

end

variable {natives : Array Native}

/-- **A step stays in the realm.** -/
theorem step_keeps (hn : ∀ n ∈ natives, n.Keeps r) {c c' : Config}
    (hstep : step natives c = .config c') (h : c.Keeps r) : c'.Keeps r := by
  obtain ⟨focus, stack, w⟩ := c
  cases focus with
  | eval e context =>
    cases hstep
    exact keeps_stepEval h
  | give v context =>
    cases hstep
    exact keeps_stepGive hn h
  | exec s =>
    cases hstep
    exact keeps_stepExec h
  | execAll ss =>
    obtain ⟨hss, hstack, hw⟩ := h
    cases ss with
    | nil =>
      cases hstep
      exact ⟨trivial, hstack, hw⟩
    | cons s ss =>
      cases hstep
      have hss' := List.forall_mem_cons.mp hss
      exact ⟨hss'.1, List.forall_mem_cons.mpr ⟨hss'.2, hstack⟩, hw⟩
  | finish flow =>
    cases stack with
    | nil => cases hstep
    | cons task stack =>
      cases hstep
      have hstack := List.forall_mem_cons.mp h.stack
      exact keeps_resume hstack.2 h.world h.focus hstack.1
  | raise error =>
    cases stack with
    | nil => cases hstep
    | cons task stack =>
      cases hstep
      have hstack := List.forall_mem_cons.mp h.stack
      exact keeps_unwind hstack.2 h.world h.focus hstack.1

/-! ## Runs -/

/-- The world that a run leaves is in the realm. -/
theorem run_keeps (hn : ∀ n ∈ natives, n.Keeps r) {fuel : Nat} {c : Config}
    {result : Except RuntimeError Flow} {w : World} (hrun : run natives fuel c = some (result, w))
    (h : c.Keeps r) : w.Keeps r := by
  induction fuel generalizing c with
  | zero => cases hrun
  | succ fuel ih =>
    rw [run_succ] at hrun
    cases hstep : step natives c with
    | config c' =>
      rw [hstep] at hrun
      exact ih hrun (step_keeps hn hstep h)
    | halt result' w' =>
      rw [hstep] at hrun
      cases hrun
      -- A run halts with its stack empty, in the world it has then.
      unfold step at hstep
      split at hstep <;> cases hstep <;> exact h.world

theorem keeps_exec {s : Stmt} {w : World} (hs : r.stmt s) (hw : w.Keeps r) :
    Config.Keeps r ⟨.exec s, [], w⟩ :=
  ⟨hs, List.forall_mem_nil _, hw⟩

/-- So is the world that a program leaves. -/
theorem interpret_keeps (hn : ∀ n ∈ natives, n.Keeps r) {fuel : Nat} {ss : List Stmt}
    {w w' : World} {result : Except RuntimeError Unit}
    (hrun : interpret natives fuel ss w = some (result, w')) (hss : ∀ s ∈ ss, r.stmt s)
    (hw : w.Keeps r) : w'.Keeps r := by
  induction ss generalizing w with
  | nil =>
    cases hrun
    exact hw
  | cons s ss ih =>
    rw [List.forall_mem_cons] at hss
    rw [interpret_cons] at hrun
    split at hrun
    · next flow w₁ hs => exact ih hrun hss.2 (run_keeps hn hs (keeps_exec hss.1 hw))
    · next e w₁ hs =>
      cases hrun
      exact run_keeps hn hs (keeps_exec hss.1 hw)
    · cases hrun

/-- So is every configuration that a program passes through. -/
theorem traceAll_keeps (hn : ∀ n ∈ natives, n.Keeps r) {fuel : Nat} {ss : List Stmt} {w : World}
    (hss : ∀ s ∈ ss, r.stmt s) (hw : w.Keeps r) :
    ∀ c ∈ traceAll natives fuel ss w, c.Keeps r := by
  induction ss generalizing w with
  | nil => exact fun c hc => absurd hc List.not_mem_nil
  | cons s ss ih =>
    rw [List.forall_mem_cons] at hss
    intro c hc
    rw [traceAll_cons, List.mem_append] at hc
    rcases hc with hc | hc
    · exact trace_induction (fun _ _ hstep => step_keeps hn hstep) fuel (keeps_exec hss.1 hw) c hc
    · split at hc
      · next flow w₁ hs => exact ih hss.2 (run_keeps hn hs (keeps_exec hss.1 hw)) c hc
      · cases hc

end Machine

/-! ## Sessions -/

namespace Session

/-- The natives and the world of a session are in the realm. -/
structure Keeps (r : Realm) (s : Session) : Prop where
  natives : ∀ n ∈ s.natives, n.Keeps r
  world : s.world.Keeps r

/-- All that a new session has are natives. -/
theorem new_keeps {natives : List Native} (hn : ∀ n ∈ natives, n.Keeps r)
    (hframe : ∀ f, r.frame f) (console : Console) : (new natives console).Keeps r := by
  refine ⟨forall_natives_new hn console, ?_⟩
  refine new_induction (motive := fun s => s.world.Keeps r) console ⟨?_, ?_, ?_, ?_⟩ ?_
  · intro f _ name b hb
    rw [Store.frame_push] at hb
    simp [Store.frame, Frame.get?] at hb
  · exact fun f _ => hframe f
  · exact fun f _ => hframe f
  · exact fun f _ => hframe f
  · exact fun s n _ h => h.bind Machine.globals n.name trivial

variable {s : Session} {source : String}

theorem Keeps.read (h : s.Keeps r) : (s.read source).2.Keeps r := ⟨h.natives, h.world⟩

/-- The natives of a session stay the same. -/
theorem run_natives {fuel : Nat} {status : Status} {ds : List Diagnostic} {s' : Session}
    (h : s.run fuel source = some (status, ds, s')) : s'.natives = s.natives := by
  obtain rfl | ⟨_, _, _, -, -, rfl⟩ := run_cases h
  · rfl
  · rfl

/-- A text whose program is in the realm leaves the session there. -/
theorem Keeps.run (h : s.Keeps r)
    (hread : ∀ program, (s.read source).1 = .ok program → ∀ stmt ∈ program, r.stmt stmt)
    {fuel : Nat} {status : Status} {ds : List Diagnostic} {s' : Session}
    (hrun : s.run fuel source = some (status, ds, s')) : s'.Keeps r := by
  obtain rfl | ⟨program, result, world, hprogram, hi, rfl⟩ := run_cases hrun
  · exact h.read
  · exact ⟨h.natives, Machine.interpret_keeps h.natives hi (hread program hprogram) h.world⟩

/-- Everything that a source passes through is in the realm if its statements are. -/
theorem Keeps.traceOf (h : s.Keeps r)
    (hread : ∀ program, (s.read source).1 = .ok program → ∀ stmt ∈ program, r.stmt stmt)
    (fuel : Nat) : ∀ c ∈ s.traceOf fuel source, c.Keeps r := by
  have hkeeps : (s.read source).2.Keeps r := h.read
  rw [Session.traceOf_eq]
  cases hresult : s.read source with
  | mk result s₁ =>
    rw [hresult] at hread hkeeps
    cases result with
    | error ds => exact fun c hc => absurd hc List.not_mem_nil
    | ok program =>
      exact Machine.traceAll_keeps hkeeps.natives (hread program rfl) hkeeps.world

/-- **A session stays in the realm**, if all programs that can be read are in it. -/
theorem Keeps.trace
    (hread : ∀ (s : Session) (source : String) (program : List Stmt),
      (s.read source).1 = .ok program → ∀ stmt ∈ program, r.stmt stmt) (fuel : Nat)
    {sources : List String} (h : s.Keeps r) : ∀ c ∈ s.trace fuel sources, c.Keeps r := by
  induction sources generalizing s with
  | nil => exact fun c hc => absurd hc List.not_mem_nil
  | cons source rest ih =>
    intro c hc
    rw [Session.trace_cons, List.mem_append] at hc
    rcases hc with hc | hc
    · exact h.traceOf (hread s source) fuel c hc
    · split at hc
      · next s' hrun => exact ih (h.run (hread s source) hrun) c hc
      · cases hc

end Session

end Nya
