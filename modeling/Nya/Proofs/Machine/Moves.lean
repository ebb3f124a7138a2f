import Nya.Proofs.Env.Frames
import Nya.Proofs.Machine.Trace
import Nya.Proofs.Scope.Scoped

/-!
# Moves

What a step can do, as far as statements, frames and names are concerned. The steps inside of an
expression are one move: they leave the store as it is, and no reference comes up that was not there
before. What is left are the moves of statements, and the few that change the store.

* `Machine.Move` for the moves
* `Machine.move_of_step`: every step is one of them
-/

namespace Nya

namespace Machine

/-! ## What is in focus -/

/-- The name that a value is awaited for. -/
def Purpose.declared? : Purpose → Option String
  | .define name => some name.lexeme
  | _ => none

/-- The expression that a statement starts with, and what the statement does with its value. -/
def start? : Stmt → Option (Expr × Purpose)
  | .expression e => some (e, .discard)
  | .print e => some (e, .print)
  | .var name (some e) => some (e, .define name)
  | .branch condition thenBranch elseBranch => some (condition, .choose thenBranch elseBranch)
  | .loop condition body => some (condition, .iterate condition body)
  | .ret _ (some e) => some (e, .ret)
  | .var _ none | .block _ | .function _ _ _ _ | .ret _ none => none

/-- The references that are still to be evaluated around a value. -/
def Hole.references : Hole → List (Access × Reference)
  | .assign target => [(.write, target)]
  | .unary _ | .binaryRight _ _ => []
  | .binaryLeft _ right | .logical _ right => right.references
  | .callee arguments _ => Expr.referencesAll arguments
  | .argument _ _ rest _ => Expr.referencesAll rest

/-- The references of all the expressions around. -/
def Context.references (context : Context) : List (Access × Reference) :=
  context.holes.flatMap Hole.references

namespace Focus

/-- What the expression in focus is evaluated for. -/
def context? : Focus → Option Context
  | .eval _ context | .give _ context => some context
  | _ => none

/-- The references that are still to be evaluated for the statement in focus. -/
def references : Focus → List (Access × Reference)
  | .eval e context => e.references ++ context.references
  | .give _ context => context.references
  | _ => []

/-- The name that what is in focus will declare in the current frame. -/
def declared? : Focus → Option String
  | .eval _ context | .give _ context => context.purpose.declared?
  | .exec s => s.declared?
  | _ => none

/-- Whether a statement has ended or a fault is on its way, so that a task is left. -/
def exits : Focus → Bool
  | .finish _ | .raise _ => true
  | _ => false

end Focus

theorem Focus.declared?_of_context? {f : Focus} {context : Context}
    (h : f.context? = some context) : f.declared? = context.purpose.declared? := by
  cases f with
  | eval e context' => cases h; rfl
  | give v context' => cases h; rfl
  | _ => cases h

theorem declared?_of_start? {s : Stmt} {e : Expr} {purpose : Purpose}
    (h : start? s = some (e, purpose)) : purpose.declared? = s.declared? := by
  cases s with
  | var name init =>
    cases init with
    | none => cases h
    | some e' => cases h; rfl
  | ret keyword value =>
    cases value with
    | none => cases h
    | some e' => cases h; rfl
  | expression e' => cases h; rfl
  | print e' => cases h; rfl
  | branch condition thenBranch elseBranch => cases h; rfl
  | loop condition body => cases h; rfl
  | block body => cases h
  | function id name params body => cases h

/-! ## Variables and parameters -/

/-- The frame that holds a variable binds it. -/
theorem World.binds_of_holder? {w : World} {r : Reference} {holder : Env}
    (h : w.holder? r = some holder) : w.store.binds holder.frame r.name.lexeme = true := by
  unfold World.holder? at h
  cases hdepth : r.depth with
  | none =>
    rw [hdepth] at h
    exact (Store.holder?_eq_some_iff.mp h).binds
  | some d =>
    rw [hdepth] at h
    exact Store.binds_of_holderAt? h

theorem World.frame_bindParams_of_ne : ∀ (params : List Token) (args : List Value) {w : World}
    {f : FrameId}, f ≠ w.env.frame → (w.bindParams params args).store.frame f = w.store.frame f
  | [], _, _, _, _ | _ :: _, [], _, _, _ => rfl
  | param :: params, arg :: args, w, f, h => by
    have hdefine : f ≠ (w.define param.lexeme arg).env.frame := h
    rw [bindParams, frame_bindParams_of_ne params args hdefine]
    exact Store.frame_bind_of_ne h _ _

/-- A frame binds the parameters besides what it did before. -/
theorem World.binds_bindParams {params : List Token} : ∀ {args : List Value} {w : World}
    {f : FrameId} {name : String}, (w.bindParams params args).store.binds f name = true →
      w.store.binds f name = true ∨ name ∈ params.map Token.lexeme := by
  induction params with
  | nil => intro args w f name h; exact .inl h
  | cons param params ih =>
    intro args w f name h
    cases args with
    | nil => exact .inl h
    | cons arg args =>
      rcases ih h with h | h
      · by_cases hname : name = param.lexeme
        · exact .inr (hname ▸ List.mem_cons_self)
        · rw [World.define, Store.define, Store.binds_bind_of_ne hname] at h
          exact .inl h
      · exact .inr (List.mem_cons_of_mem _ h)

/-! ## Moves -/

/-- What a step does. -/
inductive Move : Config → Config → Prop
  /-- It goes on inside of an expression. -/
  | think {f f' : Focus} {context context' : Context} {stack : List Task} {w w' : World} :
    f.context? = some context → f'.context? = some context' →
    context'.purpose = context.purpose → f'.references ⊆ f.references →
    w'.store = w.store → w'.env = w.env → Move ⟨f, stack, w⟩ ⟨f', stack, w'⟩
  | fault {f : Focus} {context : Context} {error : RuntimeError} {stack : List Task}
    {w w' : World} : f.context? = some context → w'.store = w.store → w'.env = w.env →
    Move ⟨f, stack, w⟩ ⟨.raise error, stack, w'⟩
  | assign {v : Value} {target : Reference} {holes : List Hole} {purpose : Purpose}
    {stack : List Task} {w : World} {holder : Env} : w.holder? target = some holder →
    Move ⟨.give v ⟨.assign target :: holes, purpose⟩, stack, w⟩
      ⟨.give v ⟨holes, purpose⟩, stack, w.overwrite holder target.name.lexeme v⟩
  | call {f : Focus} {context caller : Context} {d : Declaration} {env : Env} {args : List Value}
    {stack : List Task} {w : World} : f.context? = some context →
    caller.purpose = context.purpose → caller.references ⊆ f.references →
    Config.birth? ⟨f, stack, w⟩ = some ⟨.function d, env⟩ →
    Move ⟨f, stack, w⟩ ⟨.execAll d.body, .back w.env caller :: stack,
      ({ w with calls := w.calls + 1 }.enter env).bindParams d.params args⟩
  /-- It starts a statement with its expression. -/
  | start {s : Stmt} {e : Expr} {purpose : Purpose} {stack : List Task} {w : World} :
    start? s = some (e, purpose) → Move ⟨.exec s, stack, w⟩ ⟨.eval e ⟨[], purpose⟩, stack, w⟩
  | choose {v : Value} {thenBranch s : Stmt} {elseBranch : Option Stmt} {stack : List Task}
    {w : World} : s = thenBranch ∨ elseBranch = some s →
    Move ⟨.give v ⟨[], .choose thenBranch elseBranch⟩, stack, w⟩ ⟨.exec s, stack, w⟩
  | iterate {v : Value} {condition : Expr} {body : Stmt} {stack : List Task} {w : World} :
    Move ⟨.give v ⟨[], .iterate condition body⟩, stack, w⟩
      ⟨.exec body, .again condition body :: stack, w⟩
  | block {body : List Stmt} {stack : List Task} {w : World} :
    Move ⟨.exec (.block body), stack, w⟩ ⟨.execAll body, .leave w.env :: stack, w.enter w.env⟩
  | next {s : Stmt} {ss : List Stmt} {stack : List Task} {w : World} :
    Move ⟨.execAll (s :: ss), stack, w⟩ ⟨.exec s, .sequence ss :: stack, w⟩
  /-- It ends a statement that declares a name. -/
  | declare {f : Focus} {name : String} {b : Binding} {stack : List Task} {w : World} :
    f.declared? = some name → Move ⟨f, stack, w⟩
      ⟨.finish .completed, stack, { w with store := w.store.bind w.env.frame name b }⟩
  /-- It ends a statement that declares nothing. -/
  | finish {f : Focus} {flow : Flow} {stack : List Task} {w w' : World} :
    f.declared? = none → f.exits = false → w'.store = w.store → w'.env = w.env →
    Move ⟨f, stack, w⟩ ⟨.finish flow, stack, w'⟩
  | follow {rest : List Stmt} {stack : List Task} {w : World} :
    Move ⟨.finish .completed, .sequence rest :: stack, w⟩ ⟨.execAll rest, stack, w⟩
  | again {condition : Expr} {body : Stmt} {stack : List Task} {w : World} :
    Move ⟨.finish .completed, .again condition body :: stack, w⟩
      ⟨.eval condition ⟨[], .iterate condition body⟩, stack, w⟩
  /-- It drops a task that gives nothing back. -/
  | drop {f : Focus} {task : Task} {stack : List Task} {w : World} : f.exits = true →
    (∃ rest, task = .sequence rest) ∨ (∃ condition body, task = .again condition body) →
    Move ⟨f, task :: stack, w⟩ ⟨f, stack, w⟩
  | leave {f : Focus} {env : Env} {stack : List Task} {w : World} : f.exits = true →
    Move ⟨f, .leave env :: stack, w⟩ ⟨f, stack, w.leave env⟩
  | back {flow : Flow} {env : Env} {caller : Context} {stack : List Task} {w : World} :
    Move ⟨.finish flow, .back env caller :: stack, w⟩
      ⟨.give flow.result caller, stack, { w.leave env with calls := w.calls - 1 }⟩
  | unwind {error : RuntimeError} {env : Env} {caller : Context} {stack : List Task} {w : World} :
    Move ⟨.raise error, .back env caller :: stack, w⟩
      ⟨.raise error, stack, { w.leave env with calls := w.calls - 1 }⟩

variable {natives : Array Native} {stack : List Task} {w : World}

/-! ## Expressions -/

theorem Context.references_push (context : Context) (hole : Hole) :
    (context.push hole).references = hole.references ++ context.references :=
  List.flatMap_cons

/-- Going on with a part of an expression, with the rest of it put into a hole. -/
theorem move_part {e part : Expr} {context context' : Context}
    (hpurpose : context'.purpose = context.purpose)
    (hrefs : part.references ++ context'.references ⊆ e.references ++ context.references) :
    Move ⟨.eval e context, stack, w⟩ ⟨.eval part context', stack, w⟩ :=
  .think rfl rfl hpurpose hrefs rfl rfl

theorem move_stepEval (e : Expr) (context : Context) (stack : List Task) (w : World) :
    Move ⟨.eval e context, stack, w⟩ (stepEval e context stack w) := by
  have hgive : ∀ v, Move ⟨.eval e context, stack, w⟩ ⟨.give v context, stack, w⟩ :=
    fun v => .think rfl rfl rfl (List.subset_append_right _ _) rfl rfl
  cases e with
  | literal id value => exact hgive _
  | read target =>
    rw [stepEval]
    cases w.read? target with
    | some v => exact hgive v
    | none => exact .fault rfl rfl rfl
  | assign target value =>
    refine move_part rfl ?_
    rw [Context.references_push, Expr.references, List.append_assoc]
    exact List.Subset.refl _
  | unary id operator right =>
    refine move_part rfl ?_
    rw [Context.references_push]
    exact List.Subset.refl _
  | binary id left operator right =>
    refine move_part rfl ?_
    rw [Context.references_push, Expr.references, List.append_assoc]
    exact List.Subset.refl _
  | logical id left operator right =>
    refine move_part rfl ?_
    rw [Context.references_push, Expr.references, List.append_assoc]
    exact List.Subset.refl _
  | group id inner => exact move_part rfl (List.Subset.refl _)
  | call id callee arguments paren =>
    refine move_part rfl ?_
    rw [Context.references_push, Expr.references, List.append_assoc]
    exact List.Subset.refl _

section

variable {f : Focus} {context caller : Context} (hf : f.context? = some context)
  (hrefs : caller.references ⊆ f.references) (hpurpose : caller.purpose = context.purpose)

include hf hrefs hpurpose

theorem move_yield (result : Except RuntimeError Value) :
    Move ⟨f, stack, w⟩ (yield result caller stack w) := by
  cases result with
  | ok v => exact .think hf rfl hpurpose hrefs rfl rfl
  | error e => exact .fault hf rfl rfl

theorem move_callNative (native : Native) (args : List Value) (paren : Token) :
    Move ⟨f, stack, w⟩ (callNative native args paren caller stack w) := by
  unfold callNative
  cases native.run w.global? args w.console with
  | mk result console =>
    cases result with
    | ok v => exact .think hf rfl hpurpose hrefs rfl rfl
    | error message => exact .fault hf rfl rfl

theorem move_call {callee : Value} {args : List Value} (paren : Token)
    (hbirth : Config.birth? ⟨f, stack, w⟩ = callBirth? callee args w) :
    Move ⟨f, stack, w⟩ (call natives callee args paren caller stack w) := by
  have hraise : ∀ e, Move ⟨f, stack, w⟩ ⟨.raise e, stack, w⟩ := fun e => .fault hf rfl rfl
  cases callee with
  | closure d env =>
    simp only [call, arity?]
    by_cases hlength : args.length = d.params.length
    · by_cases hcalls : w.calls < maxCalls
      · rw [callBirth?, if_pos ⟨hlength, hcalls⟩] at hbirth
        rw [if_neg (not_not_intro hlength), if_neg (Nat.not_le.mpr hcalls), enterCall]
        exact .call hf hpurpose hrefs hbirth
      · rw [if_neg (not_not_intro hlength), if_pos (Nat.not_lt.mp hcalls)]
        exact hraise _
    · rw [if_pos hlength]
      exact hraise _
  | native g =>
    simp only [call, arity?]
    split
    · exact hraise _
    · split
      · exact hraise _
      · simp only [enterCall]
        cases natives[g.id]? with
        | none => exact hraise _
        | some native => exact move_callNative hf hrefs hpurpose native args paren
  | _ => exact hraise _

end

theorem move_nextArgument {v callee : Value} {done : List Value} {rest : List Expr}
    {hole : Hole} {holes : List Hole} {purpose : Purpose} (paren : Token)
    (hrefs : Expr.referencesAll rest ⊆ hole.references)
    (hbirth : rest = [] → Config.birth? ⟨.give v ⟨hole :: holes, purpose⟩, stack, w⟩ =
      callBirth? callee done w) :
    Move ⟨.give v ⟨hole :: holes, purpose⟩, stack, w⟩
      (nextArgument natives callee done rest paren ⟨holes, purpose⟩ stack w) := by
  have hcontext : Focus.context? (.give v ⟨hole :: holes, purpose⟩) =
      some ⟨hole :: holes, purpose⟩ := rfl
  cases rest with
  | nil =>
    have hrest : Context.references ⟨holes, purpose⟩ ⊆
        Focus.references (.give v ⟨hole :: holes, purpose⟩) := List.subset_append_right _ _
    refine move_call hcontext hrest rfl paren ?_
    rw [callBirth?_reverse]
    exact hbirth rfl
  | cons e rest =>
    refine .think hcontext rfl rfl ?_ rfl rfl
    rw [Focus.references, Context.references_push, ← List.append_assoc]
    exact List.append_subset.mpr ⟨List.subset_append_of_subset_left _ hrefs,
      List.subset_append_right _ _⟩

theorem move_fill (v : Value) (hole : Hole) (holes : List Hole) (purpose : Purpose)
    (stack : List Task) (w : World) :
    Move ⟨.give v ⟨hole :: holes, purpose⟩, stack, w⟩
      (fill natives v hole ⟨holes, purpose⟩ stack w) := by
  have hcontext : Focus.context? (.give v ⟨hole :: holes, purpose⟩) =
      some ⟨hole :: holes, purpose⟩ := rfl
  have hrest : Context.references ⟨holes, purpose⟩ ⊆ Context.references ⟨hole :: holes, purpose⟩ :=
    List.subset_append_right _ _
  cases hole with
  | assign target =>
    rw [fill]
    cases hholder : w.holder? target with
    | some holder => exact .assign hholder
    | none => exact .fault rfl rfl rfl
  | unary operator => exact move_yield hcontext hrest rfl _
  | binaryLeft operator right => exact .think rfl rfl rfl (List.Subset.refl _) rfl rfl
  | binaryRight left operator => exact move_yield hcontext hrest rfl _
  | logical operator right =>
    rw [fill]
    split
    · exact .think rfl rfl rfl hrest rfl rfl
    · exact .think rfl rfl rfl (List.Subset.refl _) rfl rfl
  | callee arguments paren =>
    refine move_nextArgument paren (List.Subset.refl _) ?_
    rintro rfl
    rfl
  | argument callee done rest paren =>
    refine move_nextArgument paren (List.Subset.refl _) ?_
    rintro rfl
    rfl

/-! ## Statements -/

theorem move_fulfil (v : Value) (purpose : Purpose) (stack : List Task) (w : World) :
    Move ⟨.give v ⟨[], purpose⟩, stack, w⟩ (fulfil v purpose stack w) := by
  cases purpose with
  | discard => exact .finish rfl rfl rfl rfl
  | print => exact .finish rfl rfl rfl rfl
  | define name => exact .declare rfl
  | choose thenBranch elseBranch =>
    simp only [fulfil]
    split
    · exact .choose (.inl rfl)
    · cases elseBranch with
      | some s => exact .choose (.inr rfl)
      | none => exact .finish rfl rfl rfl rfl
  | iterate condition body =>
    simp only [fulfil]
    split
    · exact .iterate
    · exact .finish rfl rfl rfl rfl
  | ret => exact .finish rfl rfl rfl rfl

theorem move_stepExec (s : Stmt) (stack : List Task) (w : World) :
    Move ⟨.exec s, stack, w⟩ (stepExec s stack w) := by
  cases s with
  | expression e => exact .start rfl
  | print e => exact .start rfl
  | var name init =>
    cases init with
    | none => exact .declare rfl
    | some e => exact .start rfl
  | block body => exact .block
  | branch condition thenBranch elseBranch => exact .start rfl
  | loop condition body => exact .start rfl
  | function id name params body => exact .declare rfl
  | ret keyword value =>
    cases value with
    | none => exact .finish rfl rfl rfl rfl
    | some e => exact .start rfl

theorem move_resume (flow : Flow) (task : Task) (stack : List Task) (w : World) :
    Move ⟨.finish flow, task :: stack, w⟩ (resume flow task stack w) := by
  cases task with
  | sequence rest =>
    cases flow with
    | completed => exact .follow
    | returning v => exact .drop rfl (.inl ⟨rest, rfl⟩)
  | again condition body =>
    cases flow with
    | completed => exact .again
    | returning v => exact .drop rfl (.inr ⟨condition, body, rfl⟩)
  | leave env => exact .leave rfl
  | back env caller => exact .back

theorem move_unwind (error : RuntimeError) (task : Task) (stack : List Task) (w : World) :
    Move ⟨.raise error, task :: stack, w⟩ (unwind error task stack w) := by
  cases task with
  | sequence rest => exact .drop rfl (.inl ⟨rest, rfl⟩)
  | again condition body => exact .drop rfl (.inr ⟨condition, body, rfl⟩)
  | leave env => exact .leave rfl
  | back env caller => exact .unwind

/-- **Every step is a move.** -/
theorem move_of_step {c c' : Config} (hstep : step natives c = .config c') : Move c c' := by
  obtain ⟨focus, stack, w⟩ := c
  cases focus with
  | eval e context =>
    cases hstep
    exact move_stepEval e context stack w
  | give v context =>
    cases hstep
    obtain ⟨holes, purpose⟩ := context
    cases holes with
    | nil => exact move_fulfil v purpose stack w
    | cons hole holes => exact move_fill v hole holes purpose stack w
  | exec s =>
    cases hstep
    exact move_stepExec s stack w
  | execAll ss =>
    cases ss with
    | nil =>
      cases hstep
      exact .finish rfl rfl rfl rfl
    | cons s ss =>
      cases hstep
      exact .next
  | finish flow =>
    cases stack with
    | nil => cases hstep
    | cons task stack =>
      cases hstep
      exact move_resume flow task stack w
  | raise error =>
    cases stack with
    | nil => cases hstep
    | cons task stack =>
      cases hstep
      exact move_unwind error task stack w

end Machine

end Nya
