import Nya.Proofs.Native.Conditions
import Nya.Proofs.Scope.Alpha
import Nya.Proofs.Tree.Like

/-!
# Runs that correspond

Two programs are run side by side, step by step. A *correspondence* says when their configurations
are alike: how the trees may differ, given the marks of the scopes around them, which environment of
the second run stands for one of the first, and when stores are alike. As frames are opened, it goes
through *stages*, and what is known at one stage stays known at the later ones.

A correspondence is lawful if reading, binding and opening frames keep to it. Then no step leaves
it: both runs take the same steps, and end in the same way.

* `Machine.Correspondence`, `Machine.Correspondence.Lawful`
* `Machine.Correspondence.Lawful.step_like` for one step
* `Machine.Correspondence.Lawful.run_like` for runs
-/

namespace Nya.Machine

/-- When two runs are alike. -/
structure Correspondence where
  /-- How far the runs have come: which frames there are. -/
  Stage : Type
  Later : Stage → Stage → Prop
  Knows : Stage → Env → Prop
  /-- The environment of the second run that stands for one of the first. -/
  env : Stage → Env → Env
  /-- The marks of the scopes that an environment belongs to. -/
  marks : Stage → Env → Marks
  Ref : Marks → Reference → Reference → Prop
  Var : Marks → Token → Token → Prop
  Code : Marks → Stmt → Stmt → Prop
  /-- Bodies of blocks, given the marks around the block. -/
  Body : Marks → List Stmt → List Stmt → Prop
  /-- Functions, given the marks around the declaration. -/
  Decl : Marks → Declaration → Declaration → Prop
  /-- Functions with the environments that they were declared in. -/
  Closed : Stage → Declaration → Env → Declaration → Env → Prop
  Stored : Stage → Store → Store → Prop
  Fault : RuntimeError → RuntimeError → Prop

namespace Correspondence

section

variable (P : Correspondence)

/-! ## Configurations -/

/-- The values are alike. -/
abbrev Val (Λ : P.Stage) : Value → Value → Prop := Value.Matches (P.Closed Λ)

/-- The expressions are alike. -/
abbrev Tree (marks : Marks) : Expr → Expr → Prop := Expr.Like (P.Ref marks)

/-- The expressions around are alike. -/
inductive HoleLike (Λ : P.Stage) (marks : Marks) : Hole → Hole → Prop
  | assign {target target' : Reference} (h : P.Ref marks target target') :
    HoleLike Λ marks (.assign target) (.assign target')
  | unary (operator : Token) : HoleLike Λ marks (.unary operator) (.unary operator)
  | binaryLeft {right right' : Expr} (operator : Token) (h : P.Tree marks right right') :
    HoleLike Λ marks (.binaryLeft operator right) (.binaryLeft operator right')
  | binaryRight {left left' : Value} (operator : Token) (h : P.Val Λ left left') :
    HoleLike Λ marks (.binaryRight left operator) (.binaryRight left' operator)
  | logical {right right' : Expr} (operator : Token) (h : P.Tree marks right right') :
    HoleLike Λ marks (.logical operator right) (.logical operator right')
  | callee {arguments arguments' : List Expr} (paren : Token)
    (h : List.Forall₂ (P.Tree marks) arguments arguments') :
    HoleLike Λ marks (.callee arguments paren) (.callee arguments' paren)
  | argument {callee callee' : Value} {done done' : List Value} {rest rest' : List Expr}
    (paren : Token) (h : P.Val Λ callee callee') (hdone : List.Forall₂ (P.Val Λ) done done')
    (hrest : List.Forall₂ (P.Tree marks) rest rest') :
    HoleLike Λ marks (.argument callee done rest paren) (.argument callee' done' rest' paren)

/-- The purposes are alike. -/
inductive PurposeLike (marks : Marks) : Purpose → Purpose → Prop
  | discard : PurposeLike marks .discard .discard
  | print : PurposeLike marks .print .print
  | define {name name' : Token} (h : P.Var marks name name') :
    PurposeLike marks (.define name) (.define name')
  | choose {thenBranch thenBranch' : Stmt} {elseBranch elseBranch' : Option Stmt}
    (hthen : P.Code marks thenBranch thenBranch')
    (helse : Option.Rel (P.Code marks) elseBranch elseBranch') :
    PurposeLike marks (.choose thenBranch elseBranch) (.choose thenBranch' elseBranch')
  | iterate {condition condition' : Expr} {body body' : Stmt}
    (hcondition : P.Tree marks condition condition') (h : P.Code marks body body') :
    PurposeLike marks (.iterate condition body) (.iterate condition' body')
  | ret : PurposeLike marks .ret .ret

/-- The contexts are alike. -/
structure ContextLike (Λ : P.Stage) (marks : Marks) (c c' : Context) : Prop where
  holes : List.Forall₂ (P.HoleLike Λ marks) c.holes c'.holes
  purpose : P.PurposeLike marks c.purpose c'.purpose

/-- The tasks are alike, each seen from the environment that it goes back to. -/
inductive TasksLike (Λ : P.Stage) : Env → List Task → List Task → Prop
  | nil (env : Env) : TasksLike Λ env [] []
  | sequence {env : Env} {rest rest' : List Stmt} {stack stack' : List Task}
    (h : List.Forall₂ (P.Code (P.marks Λ env)) rest rest') (hs : TasksLike Λ env stack stack') :
    TasksLike Λ env (.sequence rest :: stack) (.sequence rest' :: stack')
  | again {env : Env} {condition condition' : Expr} {body body' : Stmt} {stack stack' : List Task}
    (hcondition : P.Tree (P.marks Λ env) condition condition')
    (h : P.Code (P.marks Λ env) body body') (hs : TasksLike Λ env stack stack') :
    TasksLike Λ env (.again condition body :: stack) (.again condition' body' :: stack')
  | leave {env outer : Env} {stack stack' : List Task} (houter : P.Knows Λ outer)
    (hs : TasksLike Λ outer stack stack') :
    TasksLike Λ env (.leave outer :: stack) (.leave (P.env Λ outer) :: stack')
  | back {env outer : Env} {caller caller' : Context} {stack stack' : List Task}
    (houter : P.Knows Λ outer) (h : P.ContextLike Λ (P.marks Λ outer) caller caller')
    (hs : TasksLike Λ outer stack stack') :
    TasksLike Λ env (.back outer caller :: stack) (.back (P.env Λ outer) caller' :: stack')

/-- The statements ended in the same way. -/
inductive FlowLike (Λ : P.Stage) : Flow → Flow → Prop
  | completed : FlowLike Λ .completed .completed
  | returning {v v' : Value} (h : P.Val Λ v v') : FlowLike Λ (.returning v) (.returning v')

/-- What is to be done is alike. -/
inductive FocusLike (Λ : P.Stage) (marks : Marks) : Focus → Focus → Prop
  | eval {e e' : Expr} {context context' : Context} (he : P.Tree marks e e')
    (h : P.ContextLike Λ marks context context') :
    FocusLike Λ marks (.eval e context) (.eval e' context')
  | give {v v' : Value} {context context' : Context} (hv : P.Val Λ v v')
    (h : P.ContextLike Λ marks context context') :
    FocusLike Λ marks (.give v context) (.give v' context')
  | exec {s s' : Stmt} (h : P.Code marks s s') : FocusLike Λ marks (.exec s) (.exec s')
  | execAll {ss ss' : List Stmt} (h : List.Forall₂ (P.Code marks) ss ss') :
    FocusLike Λ marks (.execAll ss) (.execAll ss')
  | finish {flow flow' : Flow} (h : P.FlowLike Λ flow flow') :
    FocusLike Λ marks (.finish flow) (.finish flow')
  | raise {e e' : RuntimeError} (h : P.Fault e e') : FocusLike Λ marks (.raise e) (.raise e')

/-- The worlds are alike. -/
structure WorldLike (Λ : P.Stage) (w w' : World) : Prop where
  store : P.Stored Λ w.store w'.store
  env : w'.env = P.env Λ w.env
  known : P.Knows Λ w.env
  calls : w'.calls = w.calls
  console : w'.console = w.console

/-- The configurations are alike. -/
structure ConfigLike (Λ : P.Stage) (c c' : Config) : Prop where
  focus : P.FocusLike Λ (P.marks Λ c.world.env) c.focus c'.focus
  stack : P.TasksLike Λ c.world.env c.stack c'.stack
  world : P.WorldLike Λ c.world c'.world

/-- The configurations are alike at some later stage. -/
def LikeLater (Λ : P.Stage) (c c' : Config) : Prop := ∃ Λ', P.Later Λ Λ' ∧ P.ConfigLike Λ' c c'

/-- Both ended with a fault, or both without one, and the results are related. -/
inductive ResultLike {α : Type} (V : α → α → Prop) :
    Except RuntimeError α → Except RuntimeError α → Prop
  | ok {a a' : α} (h : V a a') : ResultLike V (.ok a) (.ok a')
  | error {e e' : RuntimeError} (h : P.Fault e e') : ResultLike V (.error e) (.error e')

/-- Both go on, or both halt in the same way. -/
inductive NextLike (Λ : P.Stage) : Next → Next → Prop
  | config {c c' : Config} (h : P.LikeLater Λ c c') : NextLike Λ (.config c) (.config c')
  | halt {result result' : Except RuntimeError Flow} {w w' : World}
    (hresult : P.ResultLike (P.FlowLike Λ) result result') (hw : P.WorldLike Λ w w') :
    NextLike Λ (.halt result w) (.halt result' w')

/-- Neither run has ended, or both have: in the same way, and in worlds that are alike. -/
inductive EndedLike {α : Type} (V : P.Stage → α → α → Prop) (Λ : P.Stage) :
    Option (Except RuntimeError α × World) → Option (Except RuntimeError α × World) → Prop
  | none : EndedLike V Λ none none
  | some {result result' : Except RuntimeError α} {w w' : World} {Λ' : P.Stage}
    (hΛ : P.Later Λ Λ') (hresult : P.ResultLike (V Λ') result result')
    (hw : P.WorldLike Λ' w w') : EndedLike V Λ (some (result, w)) (some (result', w'))

/-! ## Laws -/

/-- Whatever the machine does to trees and worlds that are alike, it does alike. -/
structure Lawful : Prop where
  later_refl : ∀ Λ, P.Later Λ Λ
  later_trans : ∀ {Λ Λ' Λ''}, P.Later Λ Λ' → P.Later Λ' Λ'' → P.Later Λ Λ''
  knows_later : ∀ {Λ Λ' env}, P.Later Λ Λ' → P.Knows Λ env → P.Knows Λ' env
  env_later : ∀ {Λ Λ' env}, P.Later Λ Λ' → P.Knows Λ env → P.env Λ' env = P.env Λ env
  marks_later : ∀ {Λ Λ' env}, P.Later Λ Λ' → P.Knows Λ env → P.marks Λ' env = P.marks Λ env
  closed_later : ∀ {Λ Λ'}, P.Later Λ Λ' → ∀ d env d' env', P.Closed Λ d env d' env' →
    P.Closed Λ' d env d' env'
  faithful : ∀ Λ, Value.Faithful (P.Closed Λ)
  layer : ∀ {marks s s'}, P.Code marks s s' →
    Stmt.Layer (P.Tree marks) (P.Code marks) (P.Var marks) (P.Body marks) (P.Decl marks) s s'
  fault_refl : ∀ e, P.Fault e e
  fault_undefined : ∀ {marks r r'}, P.Ref marks r r' →
    P.Fault (.undefined r.name) (.undefined r'.name)
  global? : ∀ {Λ w w'}, P.WorldLike Λ w w' → ∀ name,
    Option.Rel (P.Val Λ) (w.global? name) (w'.global? name)
  read? : ∀ {Λ w w' r r'}, P.WorldLike Λ w w' → P.Ref (P.marks Λ w.env) r r' →
    Option.Rel (P.Val Λ) (w.read? r) (w'.read? r')
  /-- The environments that hold a variable may be written to. -/
  holder? : ∀ {Λ w w' r r' v v'}, P.WorldLike Λ w w' → P.Ref (P.marks Λ w.env) r r' →
    P.Val Λ v v' → Option.Rel (fun holder holder' => P.WorldLike Λ
      (w.overwrite holder r.name.lexeme v) (w'.overwrite holder' r'.name.lexeme v'))
      (w.holder? r) (w'.holder? r')
  define : ∀ {Λ w w' name name' v v'}, P.WorldLike Λ w w' → P.Var (P.marks Λ w.env) name name' →
    P.Val Λ v v' → P.WorldLike Λ (w.define name.lexeme v) (w'.define name'.lexeme v')
  declare : ∀ {Λ w w' d d'}, P.WorldLike Λ w w' → P.Decl (P.marks Λ w.env) d d' →
    P.WorldLike Λ (w.declare d) (w'.declare d')
  enter_block : ∀ {Λ w w' body body'}, P.WorldLike Λ w w' → P.Body (P.marks Λ w.env) body body' →
    ∃ Λ', P.Later Λ Λ' ∧ P.WorldLike Λ' (w.enter w.env) (w'.enter w'.env) ∧
      List.Forall₂ (P.Code (P.marks Λ' (w.enter w.env).env)) body body'
  enter_call : ∀ {Λ w w' d env d' env' args args'}, P.WorldLike Λ w w' →
    P.Closed Λ d env d' env' → List.Forall₂ (P.Val Λ) args args' →
    ∃ Λ', P.Later Λ Λ' ∧ P.WorldLike Λ' ((w.enter env).bindParams d.params args)
        ((w'.enter env').bindParams d'.params args') ∧
      List.Forall₂ (P.Code (P.marks Λ' ((w.enter env).bindParams d.params args).env)) d.body d'.body

end

/-- The results of calls are alike if the statements ended in the same way. -/
theorem FlowLike.result {P : Correspondence} {Λ : P.Stage} {flow flow' : Flow}
    (h : P.FlowLike Λ flow flow') : P.Val Λ flow.result flow'.result := by
  cases h with
  | completed => exact .nil
  | returning hv => exact hv

theorem ContextLike.push {P : Correspondence} {Λ : P.Stage} {marks : Marks} {c c' : Context}
    {hole hole' : Hole} (h : P.ContextLike Λ marks c c') (hhole : P.HoleLike Λ marks hole hole') :
    P.ContextLike Λ marks (c.push hole) (c'.push hole') :=
  ⟨.cons hhole h.holes, h.purpose⟩

namespace Lawful

variable {P : Correspondence} (hP : P.Lawful)
include hP

/-! ## Later stages -/

section

variable {Λ Λ' : P.Stage} {marks : Marks} (hΛ : P.Later Λ Λ')
include hΛ

theorem val_later {v v' : Value} (h : P.Val Λ v v') : P.Val Λ' v v' :=
  h.mono (hP.closed_later hΛ)

theorem hole_later {hole hole' : Hole} (h : P.HoleLike Λ marks hole hole') :
    P.HoleLike Λ' marks hole hole' := by
  cases h with
  | assign h => exact .assign h
  | unary operator => exact .unary operator
  | binaryLeft operator h => exact .binaryLeft operator h
  | binaryRight operator h => exact .binaryRight operator (hP.val_later hΛ h)
  | logical operator h => exact .logical operator h
  | callee paren h => exact .callee paren h
  | argument paren h hdone hrest =>
    exact .argument paren (hP.val_later hΛ h) (hdone.imp fun _ _ hv => hP.val_later hΛ hv) hrest

theorem context_later {c c' : Context} (h : P.ContextLike Λ marks c c') :
    P.ContextLike Λ' marks c c' :=
  ⟨h.holes.imp fun _ _ hole => hP.hole_later hΛ hole, h.purpose⟩

/-- Tasks that are alike stay so, as the environments they are seen from are known. -/
theorem tasks_later {env : Env} {stack stack' : List Task} (h : P.TasksLike Λ env stack stack')
    (henv : P.Knows Λ env) : P.TasksLike Λ' env stack stack' := by
  induction h with
  | nil env => exact .nil env
  | sequence h _ ih =>
    rw [← hP.marks_later hΛ henv] at h
    exact .sequence h (ih henv)
  | again hcondition h _ ih =>
    rw [← hP.marks_later hΛ henv] at hcondition h
    exact .again hcondition h (ih henv)
  -- from here on the tasks belong to the environment that is gone back to
  | leave houter _ ih =>
    rw [← hP.env_later hΛ houter]
    exact .leave (hP.knows_later hΛ houter) (ih houter)
  | back houter h _ ih =>
    rw [← hP.marks_later hΛ houter] at h
    rw [← hP.env_later hΛ houter]
    exact .back (hP.knows_later hΛ houter) (hP.context_later hΛ h) (ih houter)

/-- Runs that are alike from a later stage on are so from an earlier one on. -/
theorem ended_later {α : Type} {V : P.Stage → α → α → Prop}
    {r r' : Option (Except RuntimeError α × World)} (h : P.EndedLike V Λ' r r') :
    P.EndedLike V Λ r r' := by
  cases h with
  | none => exact .none
  | some hΛ' hresult hw => exact .some (hP.later_trans hΛ hΛ') hresult hw

end

/-! ## Steps -/

section

variable {natives : Array Native} {Λ : P.Stage} {context context' : Context}
  {stack stack' : List Task} {w w' : World} {args args' : List Value}

theorem now {c c' : Config} (h : P.ConfigLike Λ c c') : P.LikeLater Λ c c' :=
  ⟨Λ, hP.later_refl Λ, h⟩

/-! The machine goes on in worlds that are alike, with tasks and contexts that are. -/

variable (hs : P.TasksLike Λ w.env stack stack') (hw : P.WorldLike Λ w w')
  (hc : P.ContextLike Λ (P.marks Λ w.env) context context')

include hs hw in
/-- The same fault of the machine is raised. -/
theorem raise_like (e : RuntimeError) : P.LikeLater Λ ⟨.raise e, stack, w⟩ ⟨.raise e, stack', w'⟩ :=
  hP.now ⟨.raise (hP.fault_refl e), hs, hw⟩

section

include hs hw hc

/-- An expression is evaluated alike, and no frame is opened. -/
theorem stepEval_like {e e' : Expr} (he : P.Tree (P.marks Λ w.env) e e') :
    P.ConfigLike Λ (stepEval e context stack w) (stepEval e' context' stack' w') := by
  cases he with
  | literal id value => exact ⟨.give (Value.Matches.literal value) hc, hs, hw⟩
  | @read target target' h =>
    have hread := hP.read? hw h
    simp only [stepEval]
    generalize w.read? target = v at hread ⊢
    generalize w'.read? target' = v' at hread ⊢
    cases hread with
    | some hv => exact ⟨.give hv hc, hs, hw⟩
    | none => exact ⟨.raise (hP.fault_undefined h), hs, hw⟩
  | assign h hvalue => exact ⟨.eval hvalue (hc.push (.assign h)), hs, hw⟩
  | unary id operator h => exact ⟨.eval h (hc.push (.unary operator)), hs, hw⟩
  | binary id operator hleft hright =>
    exact ⟨.eval hleft (hc.push (.binaryLeft operator hright)), hs, hw⟩
  | logical id operator hleft hright =>
    exact ⟨.eval hleft (hc.push (.logical operator hright)), hs, hw⟩
  | group id h => exact ⟨.eval h hc, hs, hw⟩
  | call id paren hcallee harguments =>
    exact ⟨.eval hcallee (hc.push (.callee paren harguments)), hs, hw⟩

/-- Results that match are yielded alike, faults included. -/
theorem yield_like {result result' : Except RuntimeError Value}
    (hresult : Value.ResultMatches (P.Closed Λ) result result') :
    P.LikeLater Λ (yield result context stack w) (yield result' context' stack' w') := by
  cases hresult with
  | ok hv => exact hP.now ⟨.give hv hc, hs, hw⟩
  | error e => exact hP.raise_like hs hw e

/-- A native that respects the correspondence does not tell the two runs apart. -/
theorem callNative_like {native : Native} (hn : native.Respects (P.Closed Λ))
    (hargs : List.Forall₂ (P.Val Λ) args args') (paren : Token) :
    P.LikeLater Λ (callNative native args paren context stack w)
      (callNative native args' paren context' stack' w') := by
  obtain ⟨hresult, hconsole⟩ := hn w.global? w'.global? args args' w.console (hP.global? hw) hargs
  unfold callNative
  rw [hw.console]
  cases hrun : native.run w.global? args w.console with
  | mk result console =>
    cases hrun' : native.run w'.global? args' w.console with
    | mk result' console' =>
      rw [hrun, hrun'] at hresult hconsole
      obtain rfl : console' = console := hconsole
      have hworld : P.WorldLike Λ { w with console := console' } { w' with console := console' } :=
        { hw with console := rfl }
      cases hresult with
      | ok hv => exact hP.now ⟨.give hv hc, hs, hworld⟩
      | error e => exact hP.now ⟨.raise (hP.fault_refl _), hs, hworld⟩

/-- A call of a function opens a frame in both runs. -/
theorem enterClosure_like {d d' : Declaration} {env env' : Env} (hd : P.Closed Λ d env d' env')
    (hargs : List.Forall₂ (P.Val Λ) args args') :
    P.LikeLater Λ
      ⟨.execAll d.body, .back w.env context :: stack,
        ({ w with calls := w.calls + 1 }.enter env).bindParams d.params args⟩
      ⟨.execAll d'.body, .back w'.env context' :: stack',
        ({ w' with calls := w'.calls + 1 }.enter env').bindParams d'.params args'⟩ := by
  have hcalls : P.WorldLike Λ { w with calls := w.calls + 1 } { w' with calls := w'.calls + 1 } :=
    { hw with calls := congrArg (· + 1) hw.calls }
  obtain ⟨Λ', hΛ, hentered, hbody⟩ := hP.enter_call hcalls hd hargs
  refine ⟨Λ', hΛ, .execAll hbody, ?_, hentered⟩
  rw [hw.env, ← hP.env_later hΛ hw.known]
  rw [← hP.marks_later hΛ hw.known] at hc
  exact .back (hP.knows_later hΛ hw.known) (hP.context_later hΛ hc) (hP.tasks_later hΛ hs hw.known)

end

section

variable (hn : ∀ n ∈ natives, ∀ Λ, n.Respects (P.Closed Λ))
include hn hs hw hc

theorem enterCall_like {callee callee' : Value} (hcallee : P.Val Λ callee callee')
    (hargs : List.Forall₂ (P.Val Λ) args args') (paren : Token) :
    P.LikeLater Λ (enterCall natives callee args paren context stack w)
      (enterCall natives callee' args' paren context' stack' w') := by
  cases hcallee with
  | closure hd => exact hP.enterClosure_like hs hw hc hd hargs
  | native f =>
    simp only [enterCall]
    cases hf : natives[f.id]? with
    | some native =>
      exact hP.callNative_like hs hw hc (hn native (Array.mem_of_getElem? hf) Λ) hargs paren
    | none => exact hP.raise_like hs hw _
  | _ => exact hP.raise_like hs hw _

/-- A call has the same number of arguments in both runs, and the same fault if that is wrong. -/
theorem call_like {callee callee' : Value} (hcallee : P.Val Λ callee callee')
    (hargs : List.Forall₂ (P.Val Λ) args args') (paren : Token) :
    P.LikeLater Λ (call natives callee args paren context stack w)
      (call natives callee' args' paren context' stack' w') := by
  unfold call
  rw [Value.Matches.arity?_eq (hP.faithful Λ) hcallee, hargs.length_eq, hw.calls]
  cases arity? callee with
  | none => exact hP.raise_like hs hw _
  | some arity =>
    dsimp only
    split
    · exact hP.raise_like hs hw _
    · split
      · exact hP.raise_like hs hw _
      · exact hP.enterCall_like hs hw hc hn hcallee hargs paren

/-- The arguments are evaluated alike, and the call follows the last one. -/
theorem nextArgument_like {callee callee' : Value} (hcallee : P.Val Λ callee callee')
    {done done' : List Value} (hdone : List.Forall₂ (P.Val Λ) done done') {rest rest' : List Expr}
    (hrest : List.Forall₂ (P.Tree (P.marks Λ w.env)) rest rest') (paren : Token) :
    P.LikeLater Λ (nextArgument natives callee done rest paren context stack w)
      (nextArgument natives callee' done' rest' paren context' stack' w') := by
  cases hrest with
  | nil => exact hP.call_like hs hw hc hn hcallee (List.rel_reverse hdone) paren
  | cons he hrest =>
    exact hP.now ⟨.eval he (hc.push (.argument paren hcallee hdone hrest)), hs, hw⟩

/-- A value in its hole leads to the same. -/
theorem fill_like {v v' : Value} (hv : P.Val Λ v v') {hole hole' : Hole}
    (hhole : P.HoleLike Λ (P.marks Λ w.env) hole hole') :
    P.LikeLater Λ (fill natives v hole context stack w)
      (fill natives v' hole' context' stack' w') := by
  cases hhole with
  | @assign target target' h =>
    have hholder := hP.holder? hw h hv
    simp only [fill]
    generalize w.holder? target = holder at hholder ⊢
    generalize w'.holder? target' = holder' at hholder ⊢
    cases hholder with
    | some hwrite => exact hP.now ⟨.give hv hc, hs, hwrite⟩
    | none => exact hP.now ⟨.raise (hP.fault_undefined h), hs, hw⟩
  | unary operator => exact hP.yield_like hs hw hc (Value.Matches.applyUnary operator hv)
  | binaryLeft operator hright =>
    exact hP.now ⟨.eval hright (hc.push (.binaryRight operator hv)), hs, hw⟩
  | binaryRight operator hleft =>
    exact hP.yield_like hs hw hc (Value.Matches.applyBinary (hP.faithful Λ) operator hleft hv)
  | logical operator hright =>
    have hsettles : settles operator v' = settles operator v := by
      rw [settles, settles, Value.Matches.isTruthy_eq hv]
    simp only [fill, hsettles]
    split
    · exact hP.now ⟨.give hv hc, hs, hw⟩
    · exact hP.now ⟨.eval hright hc, hs, hw⟩
  | callee paren harguments => exact hP.nextArgument_like hs hw hc hn hv .nil harguments paren
  | argument paren hcallee hdone hrest =>
    exact hP.nextArgument_like hs hw hc hn hcallee (.cons hv hdone) hrest paren

end

include hs hw

/-- A value is put to the same purpose. -/
theorem fulfil_like {v v' : Value} (hv : P.Val Λ v v') {purpose purpose' : Purpose}
    (hp : P.PurposeLike (P.marks Λ w.env) purpose purpose') :
    P.ConfigLike Λ (fulfil v purpose stack w) (fulfil v' purpose' stack' w') := by
  have htruthy : v'.isTruthy = v.isTruthy := Value.Matches.isTruthy_eq hv
  cases hp with
  | discard => exact ⟨.finish .completed, hs, hw⟩
  | print =>
    have htext := Value.Matches.text_eq (hP.faithful Λ) hv
    refine ⟨.finish .completed, hs, { hw with console := ?_ }⟩
    show w'.console.print v'.text = w.console.print v.text
    rw [hw.console, htext]
  | define hname => exact ⟨.finish .completed, hs, hP.define hw hname hv⟩
  | choose hthen helse =>
    simp only [fulfil, htruthy]
    split
    · exact ⟨.exec hthen, hs, hw⟩
    · cases helse with
      | some helse => exact ⟨.exec helse, hs, hw⟩
      | none => exact ⟨.finish .completed, hs, hw⟩
  | iterate hcondition h =>
    simp only [fulfil, htruthy]
    split
    · exact ⟨.exec h, .again hcondition h hs, hw⟩
    · exact ⟨.finish .completed, hs, hw⟩
  | ret => exact ⟨.finish (.returning hv), hs, hw⟩

include hc in
/-- A value that is given leads to the same. -/
theorem stepGive_like (hn : ∀ n ∈ natives, ∀ Λ, n.Respects (P.Closed Λ)) {v v' : Value}
    (hv : P.Val Λ v v') :
    P.LikeLater Λ (stepGive natives v context stack w)
      (stepGive natives v' context' stack' w') := by
  obtain ⟨holes, purpose⟩ := context
  obtain ⟨holes', purpose'⟩ := context'
  obtain ⟨hholes, hp⟩ := hc
  cases hholes with
  | nil => exact hP.now (hP.fulfil_like hs hw hv hp)
  | @cons _ _ holes holes' hhole hholes =>
    have hcontext : P.ContextLike Λ (P.marks Λ w.env) ⟨holes, purpose⟩ ⟨holes', purpose'⟩ :=
      ⟨hholes, hp⟩
    exact hP.fill_like hs hw hcontext hn hv hhole

/-- A block opens a frame in both runs. -/
theorem enterBlock_like {body body' : List Stmt} (h : P.Body (P.marks Λ w.env) body body') :
    P.LikeLater Λ ⟨.execAll body, .leave w.env :: stack, w.enter w.env⟩
      ⟨.execAll body', .leave w'.env :: stack', w'.enter w'.env⟩ := by
  obtain ⟨Λ', hΛ, hentered, hbody⟩ := hP.enter_block hw h
  refine ⟨Λ', hΛ, .execAll hbody, ?_, hentered⟩
  rw [hw.env, ← hP.env_later hΛ hw.known]
  exact .leave (hP.knows_later hΛ hw.known) (hP.tasks_later hΛ hs hw.known)

/-- A statement leads to the same. -/
theorem stepExec_like {s s' : Stmt} (h : P.Code (P.marks Λ w.env) s s') :
    P.LikeLater Λ (stepExec s stack w) (stepExec s' stack' w') := by
  cases hP.layer h with
  | expression he => exact hP.now ⟨.eval he ⟨.nil, .discard⟩, hs, hw⟩
  | print he => exact hP.now ⟨.eval he ⟨.nil, .print⟩, hs, hw⟩
  | var hname hinit =>
    cases hinit with
    | some he => exact hP.now ⟨.eval he ⟨.nil, .define hname⟩, hs, hw⟩
    | none => exact hP.now ⟨.finish .completed, hs, hP.define hw hname .nil⟩
  | block hbody => exact hP.enterBlock_like hs hw hbody
  | branch hcondition hthen helse =>
    exact hP.now ⟨.eval hcondition ⟨.nil, .choose hthen helse⟩, hs, hw⟩
  | loop hcondition hbody =>
    exact hP.now ⟨.eval hcondition ⟨.nil, .iterate hcondition hbody⟩, hs, hw⟩
  | function d d' hd => exact hP.now ⟨.finish .completed, hs, hP.declare hw hd⟩
  | ret keyword hvalue =>
    cases hvalue with
    | some he => exact hP.now ⟨.eval he ⟨.nil, .ret⟩, hs, hw⟩
    | none => exact hP.now ⟨.finish (.returning .nil), hs, hw⟩

end

omit hP

section

variable {Λ : P.Stage} {stack stack' : List Task} {task task' : Task} {w w' : World}
  (hs : P.TasksLike Λ w.env (task :: stack) (task' :: stack')) (hw : P.WorldLike Λ w w')
include hs hw

/-- What waits at the top of the stack goes on in its own environment. -/
theorem resume_like {flow flow' : Flow} (h : P.FlowLike Λ flow flow') :
    P.ConfigLike Λ (resume flow task stack w) (resume flow' task' stack' w') := by
  cases hs with
  | sequence hrest hs =>
    cases h with
    | completed => exact ⟨.execAll hrest, hs, hw⟩
    | returning hv => exact ⟨.finish (.returning hv), hs, hw⟩
  | again hcondition hbody hs =>
    cases h with
    | completed => exact ⟨.eval hcondition ⟨.nil, .iterate hcondition hbody⟩, hs, hw⟩
    | returning hv => exact ⟨.finish (.returning hv), hs, hw⟩
  | leave houter hs => exact ⟨.finish h, hs, { hw with env := rfl, known := houter }⟩
  | back houter hcaller hs =>
    have hcalls : w'.calls - 1 = w.calls - 1 := by rw [hw.calls]
    exact ⟨.give (h.result) hcaller, hs,
      { hw with env := rfl, known := houter, calls := hcalls }⟩

/-- A fault passes the same tasks. -/
theorem unwind_like {e e' : RuntimeError} (h : P.Fault e e') :
    P.ConfigLike Λ (unwind e task stack w) (unwind e' task' stack' w') := by
  cases hs with
  | sequence _ hs => exact ⟨.raise h, hs, hw⟩
  | again _ _ hs => exact ⟨.raise h, hs, hw⟩
  | leave houter hs => exact ⟨.raise h, hs, { hw with env := rfl, known := houter }⟩
  | back houter hcaller hs =>
    have hcalls : w'.calls - 1 = w.calls - 1 := by rw [hw.calls]
    exact ⟨.raise h, hs, { hw with env := rfl, known := houter, calls := hcalls }⟩

end

section

variable {natives : Array Native} (hn : ∀ n ∈ natives, ∀ Λ, n.Respects (P.Closed Λ))
include hP hn

/-- **Both take the same step.** -/
theorem step_like {Λ : P.Stage} {c c' : Config} (h : P.ConfigLike Λ c c') :
    P.NextLike Λ (step natives c) (step natives c') := by
  obtain ⟨focus, stack, w⟩ := c
  obtain ⟨focus', stack', w'⟩ := c'
  obtain ⟨hf, hs, hw⟩ := h
  cases hf with
  | eval he hc => exact .config (hP.now (hP.stepEval_like hs hw hc he))
  | give hv hc => exact .config (hP.stepGive_like hs hw hc hn hv)
  | exec hstmt => exact .config (hP.stepExec_like hs hw hstmt)
  | execAll hall =>
    cases hall with
    | nil => exact .config (hP.now ⟨.finish .completed, hs, hw⟩)
    | cons hstmt hrest => exact .config (hP.now ⟨.exec hstmt, .sequence hrest hs, hw⟩)
  | finish hflow =>
    cases stack with
    | nil =>
      cases hs
      exact .halt (.ok hflow) hw
    | cons task stack =>
      cases stack' with
      | nil => cases hs
      | cons task' stack' => exact .config (hP.now (resume_like hs hw hflow))
  | raise herror =>
    cases stack with
    | nil =>
      cases hs
      exact .halt (.error herror) hw
    | cons task stack =>
      cases stack' with
      | nil => cases hs
      | cons task' stack' => exact .config (hP.now (unwind_like hs hw herror))

/-- **Both runs end in the same way.** -/
theorem run_like : ∀ (fuel : Nat) {Λ : P.Stage} {c c' : Config}, P.ConfigLike Λ c c' →
    P.EndedLike P.FlowLike Λ (run natives fuel c) (run natives fuel c')
  | 0, _, _, _, _ => .none
  | fuel + 1, Λ, c, c', h => by
    have hstep := hP.step_like hn h
    rw [run_succ, run_succ]
    generalize step natives c = next at hstep ⊢
    generalize step natives c' = next' at hstep ⊢
    cases hstep with
    | config hlater =>
      -- the rest of the run may lead to a later stage than the step
      obtain ⟨Λ', hΛ, hc⟩ := hlater
      exact hP.ended_later hΛ (run_like fuel hc)
    | halt hresult hw => exact .some (hP.later_refl Λ) hresult hw

end

end Lawful

end Correspondence

end Nya.Machine
