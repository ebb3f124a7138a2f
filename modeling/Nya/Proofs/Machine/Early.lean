import Mathlib.Data.List.Forall2
import Nya.Proofs.Env.Early
import Nya.Proofs.Machine.History

/-!
# A machine that keeps functions as values

The machine of this module differs from the other one in a single step: a declaration binds its name
to a function value, closed over the current environment. Both machines go through the same
configurations, the stores aside, and read the same values out of these.

The chain of a declaration is found again at each read because no frame lies on two chains. That
chains are opened one inside of the other is known of every configuration that is sound.

* `Machine.stepEarly`
* `Machine.step_early` for one step, `Machine.run_early` and `Machine.traceAll_early` for runs
-/

namespace Nya.Machine

/-! ## The machine -/

/-- Binds a function in the current frame, as a value that is made at once. -/
def World.declareEarly (w : World) (d : Declaration) : World :=
  { w with store := w.store.declareEarly w.env d }

/-- The next configuration, with functions kept as values. -/
def stepEarly (natives : Array Native) : Config → Next
  | ⟨.exec (.function id name params body), stack, w⟩ =>
    .config ⟨.finish .completed, stack, w.declareEarly ⟨id, name, params, body⟩⟩
  | c => step natives c

/-! ## Worlds -/

/-- The second world is the first one with functions kept as values. -/
inductive World.Early (births : List Birth) : World → World → Prop
  | mk {s s' : Store} (env : Env) (calls : Nat) (console : Console)
    (h : s.Early (Born births) s') : Early births ⟨s, env, calls, console⟩ ⟨s', env, calls, console⟩

/-- Nothing but the store of the worlds differs. -/
inductive Config.Early (births : List Birth) : Config → Config → Prop
  | mk {w w' : World} (focus : Focus) (stack : List Task) (h : w.Early births w') :
    Early births ⟨focus, stack, w⟩ ⟨focus, stack, w'⟩

namespace World.Early

variable {births births' : List Birth} {w w' : World}

/-- More frames may have been opened since. -/
theorem mono (h : w.Early births w') (hbirths : births <+: births') : w.Early births' w' := by
  cases h with
  | mk env calls console h => exact .mk env calls console (h.mono fun _ hb => hb.mono hbirths)

/-- The globals are the same, so that natives see the same. -/
theorem global?_eq (h : w.Early births w') : w'.global? = w.global? := by
  cases h with
  | mk env calls console h =>
    funext name
    refine h.lookup?_eq (Born.apart births) fun holder hholds => ?_
    obtain ⟨hops, rfl, -⟩ := hholds
    exact Born.globals.ancestor hops

/-- A reference has the same value. -/
theorem read?_eq (h : w.Early births w') (henv : Born births w.env) (r : Reference) :
    w'.read? r = w.read? r := by
  have hglobal := h.global?_eq
  cases h with
  | mk env calls console h =>
    obtain ⟨id, name, depth⟩ := r
    cases depth with
    | some depth => exact h.read?_eq (Born.apart births) (henv.ancestor depth) name.lexeme
    | none => exact congrFun hglobal name.lexeme

/-- A reference is assigned to in the same frame. -/
theorem holder?_eq (h : w.Early births w') (r : Reference) : w'.holder? r = w.holder? r := by
  cases h with
  | mk env calls console h =>
    obtain ⟨id, name, depth⟩ := r
    cases depth with
    | some depth => exact h.holderAt?_eq env depth name.lexeme
    | none => exact h.holder?_eq globals name.lexeme

theorem overwrite (h : w.Early births w') (holder : Env) (name : String) (v : Value) :
    (w.overwrite holder name v).Early births (w'.overwrite holder name v) := by
  cases h with
  | mk env calls console h => exact .mk env calls console (h.define holder name v)

theorem define (h : w.Early births w') (name : String) (v : Value) :
    (w.define name v).Early births (w'.define name v) := by
  cases h with
  | mk env calls console h => exact .mk env calls console (h.define env name v)

/-- A function that is closed when it is declared is the one that is closed when it is read. -/
theorem declare (h : w.Early births w') (henv : Born births w.env) (d : Declaration) :
    (w.declare d).Early births (w'.declareEarly d) := by
  cases h with
  | mk env calls console h => exact .mk env calls console (h.declare henv d)

/-- A scope is entered alike. -/
theorem enter (h : w.Early births w') (outer : Env) :
    (w.enter outer).Early births (w'.enter outer) := by
  cases h with
  | mk env calls console h =>
    unfold World.enter
    rw [h.next]
    exact .mk _ calls console h.push

/-- Parameters are bound alike: the arguments are closed already. -/
theorem bindParams : ∀ (params : List Token) (args : List Value) {w w' : World},
    w.Early births w' → (w.bindParams params args).Early births (w'.bindParams params args)
  | [], _, _, _, h => h
  | _ :: _, [], _, _, h => h
  | param :: params, arg :: args, _, _, h => bindParams params args (h.define param.lexeme arg)

theorem setCalls (h : w.Early births w') (env : Env) (f : Nat → Nat) :
    World.Early births { w with env, calls := f w.calls } { w' with env, calls := f w'.calls } := by
  cases h with
  | mk env' calls console h => exact .mk env (f calls) console h

theorem setConsole (h : w.Early births w') (console : Console) :
    World.Early births { w with console } { w' with console } := by
  cases h with
  | mk env calls console' h => exact .mk env calls console h

end World.Early

/-! ## Steps -/

section

variable {births : List Birth} {natives : Array Native} {context : Context} {stack : List Task}
  {w w' : World}

/-- A variable that is read yields the same function, whenever this was closed. -/
theorem stepEval_early (h : w.Early births w') (henv : Born births w.env) (e : Expr) :
    (stepEval e context stack w).Early births (stepEval e context stack w') := by
  cases e with
  | read target =>
    simp only [stepEval, h.read?_eq henv]
    cases w.read? target with
    | some v => exact .mk _ _ h
    | none => exact .mk _ _ h
  | _ => exact .mk _ _ h

/-- A native is called with the same arguments, and finds the same globals. -/
theorem callNative_early (h : w.Early births w') (native : Native) (args : List Value)
    (paren : Token) :
    (callNative native args paren context stack w).Early births
      (callNative native args paren context stack w') := by
  have hconsole : w'.console = w.console := by cases h; rfl
  unfold callNative
  rw [h.global?_eq, hconsole]
  split
  · exact .mk _ _ (h.setConsole _)
  · exact .mk _ _ (h.setConsole _)

/-- A call opens the same frame and goes on with the same body. -/
theorem enterCall_early (h : w.Early births w') (callee : Value) (args : List Value)
    (paren : Token) :
    (enterCall natives callee args paren context stack w).Early births
      (enterCall natives callee args paren context stack w') := by
  have henv : w'.env = w.env := by cases h; rfl
  cases callee with
  | closure d env =>
    simp only [enterCall, henv]
    exact .mk _ _ (World.Early.bindParams d.params args ((h.setCalls w.env (· + 1)).enter env))
  | native f =>
    simp only [enterCall]
    cases natives[f.id]? with
    | some native => exact callNative_early h native args paren
    | none => exact .mk _ _ h
  | _ => exact .mk _ _ h

theorem nextArgument_early (h : w.Early births w') (callee : Value) (done : List Value)
    (rest : List Expr) (paren : Token) :
    (nextArgument natives callee done rest paren context stack w).Early births
      (nextArgument natives callee done rest paren context stack w') := by
  have hcalls : w'.calls = w.calls := by cases h; rfl
  cases rest with
  | cons e rest => exact .mk _ _ h
  | nil =>
    simp only [nextArgument, call, hcalls]
    split
    · exact .mk _ _ h
    · split
      · exact .mk _ _ h
      · split
        · exact .mk _ _ h
        · exact enterCall_early h callee _ paren

theorem yield_early (h : w.Early births w') (result : Except RuntimeError Value) :
    (yield result context stack w).Early births (yield result context stack w') := by
  cases result with
  | ok v => exact .mk _ _ h
  | error e => exact .mk _ _ h

/-- A value in its hole leads to the same. -/
theorem fill_early (h : w.Early births w') (v : Value) (hole : Hole) :
    (fill natives v hole context stack w).Early births
      (fill natives v hole context stack w') := by
  cases hole with
  | assign target =>
    simp only [fill, h.holder?_eq]
    cases w.holder? target with
    | some holder => exact .mk _ _ (h.overwrite holder target.name.lexeme v)
    | none => exact .mk _ _ h
  | unary operator => exact yield_early h _
  | binaryLeft operator right => exact .mk _ _ h
  | binaryRight left operator => exact yield_early h _
  | logical operator right =>
    simp only [fill]
    split
    · exact .mk _ _ h
    · exact .mk _ _ h
  | callee arguments paren => exact nextArgument_early h v [] arguments paren
  | argument callee done rest paren => exact nextArgument_early h callee (v :: done) rest paren

theorem fulfil_early (h : w.Early births w') (v : Value) (purpose : Purpose) :
    (fulfil v purpose stack w).Early births (fulfil v purpose stack w') := by
  cases purpose with
  | print =>
    have hconsole : w'.console = w.console := by cases h; rfl
    unfold fulfil World.print
    rw [hconsole]
    exact .mk _ _ (h.setConsole _)
  | define name => exact .mk _ _ (h.define name.lexeme v)
  | choose thenBranch elseBranch =>
    simp only [fulfil]
    split
    · exact .mk _ _ h
    · cases elseBranch with
      | some s => exact .mk _ _ h
      | none => exact .mk _ _ h
  | iterate condition body =>
    simp only [fulfil]
    split
    · exact .mk _ _ h
    · exact .mk _ _ h
  | discard => exact .mk _ _ h
  | ret => exact .mk _ _ h

/-- A statement other than the declaration of a function. -/
theorem stepExec_early (h : w.Early births w') {s : Stmt}
    (hs : ∀ id name params body, s ≠ .function id name params body) :
    (stepExec s stack w).Early births (stepExec s stack w') := by
  have henv : w'.env = w.env := by cases h; rfl
  cases s with
  | var name init =>
    cases init with
    | some init => exact .mk _ _ h
    | none => exact .mk _ _ (h.define name.lexeme .nil)
  | block body =>
    simp only [stepExec, henv]
    exact .mk _ _ (h.enter w.env)
  | function id name params body => exact absurd rfl (hs id name params body)
  | ret keyword value =>
    cases value with
    | some e => exact .mk _ _ h
    | none => exact .mk _ _ h
  | _ => exact .mk _ _ h

/-- A task goes on alike. -/
theorem resume_early (h : w.Early births w') (flow : Flow) (task : Task) :
    (resume flow task stack w).Early births (resume flow task stack w') := by
  cases task with
  | leave env => exact .mk _ _ (h.setCalls env id)
  | back env caller => exact .mk _ _ (h.setCalls env (· - 1))
  | sequence rest => cases flow <;> exact .mk _ _ h
  | again condition body => cases flow <;> exact .mk _ _ h

theorem unwind_early (h : w.Early births w') (error : RuntimeError) (task : Task) :
    (unwind error task stack w).Early births (unwind error task stack w') := by
  cases task with
  | leave env => exact .mk _ _ (h.setCalls env id)
  | back env caller => exact .mk _ _ (h.setCalls env (· - 1))
  | sequence rest => exact .mk _ _ h
  | again condition body => exact .mk _ _ h

end

/-- Both go on, or both halt with the same result. -/
inductive Next.Early (births : List Birth) : Next → Next → Prop
  | config {c c' : Config} (h : c.Early births c') : Early births (.config c) (.config c')
  | halt {w w' : World} (result : Except RuntimeError Flow) (h : w.Early births w') :
    Early births (.halt result w) (.halt result w')

/-- The two steps differ for declarations of functions only. -/
theorem stepEarly_exec (natives : Array Native) {s : Stmt}
    (hs : ∀ id name params body, s ≠ .function id name params body) (stack : List Task)
    (w : World) :
    stepEarly natives ⟨.exec s, stack, w⟩ = .config (stepExec s stack w) := by
  cases s with
  | function id name params body => exact absurd rfl (hs id name params body)
  | _ => rfl

/-- **Both machines take the same step.** -/
theorem step_early {vs : List Visit} {births : List Birth} (natives : Array Native) {c c' : Config}
    (hsound : c.Sound vs births) (h : c.Early births c') :
    (step natives c).Early births (stepEarly natives c') := by
  cases h with
  | @mk w w' focus stack h =>
    cases focus with
    | eval e context =>
      obtain ⟨-, levels, hfits, -⟩ := hsound
      exact .config (stepEval_early h hfits.born e)
    | give v context =>
      obtain ⟨holes, purpose⟩ := context
      cases holes with
      | nil => exact .config (fulfil_early h v purpose)
      | cons hole holes => exact .config (fill_early h v hole)
    | exec s =>
      obtain ⟨-, levels, hfits, -⟩ := hsound
      by_cases hs : ∃ id name params body, s = .function id name params body
      · obtain ⟨id, name, params, body, rfl⟩ := hs
        exact .config (.mk _ _ (h.declare hfits.born ⟨id, name, params, body⟩))
      · have hne : ∀ id name params body, s ≠ .function id name params body :=
          fun id name params body heq => hs ⟨id, name, params, body, heq⟩
        rw [stepEarly_exec natives hne]
        exact .config (stepExec_early h hne)
    | execAll ss =>
      cases ss with
      | nil => exact .config (.mk _ _ h)
      | cons s ss => exact .config (.mk _ _ h)
    | finish flow =>
      cases stack with
      | nil => exact .halt _ h
      | cons task stack => exact .config (resume_early h flow task)
    | raise error =>
      cases stack with
      | nil => exact .halt _ h
      | cons task stack => exact .config (unwind_early h error task)

/-! ## Runs -/

/-- The configurations differ in nothing but how functions are kept. -/
structure Config.Same (c c' : Config) : Prop where
  focus : c'.focus = c.focus
  stack : c'.stack = c.stack
  env : c'.world.env = c.world.env
  calls : c'.world.calls = c.world.calls
  console : c'.world.console = c.world.console
  globals : c'.world.global? = c.world.global?

theorem Config.Early.mono {births births' : List Birth} {c c' : Config} (h : c.Early births c')
    (hbirths : births <+: births') : c.Early births' c' := by
  cases h with
  | mk focus stack h => exact .mk focus stack (h.mono hbirths)

/-- Configurations that differ in when functions are closed do the same next. -/
theorem Config.Early.same {births : List Birth} {c c' : Config} (h : c.Early births c') :
    c.Same c' := by
  cases h with
  | mk focus stack h =>
    have hglobal := h.global?_eq
    cases h with
    | mk env calls console h => exact ⟨rfl, rfl, rfl, rfl, rfl, hglobal⟩

/-- Neither run has ended, or both have with the same result. -/
def EndedEarly {α : Type} (births : List Birth)
    (r r' : Option (Except RuntimeError α × World)) : Prop :=
  Option.Rel (fun r r' => r'.1 = r.1 ∧ r.2.Early births r'.2) r r'

section

variable {vs : List Visit} {natives : Array Native} (hvs : ∀ v ∈ vs, v.Sound)
  (hn : ∀ n ∈ natives, n.Honest)
include hvs hn

/-- **Both machines run through the same configurations to the same end.** -/
theorem run_early : ∀ (fuel : Nat) {before : List Birth} {c c' : Config}, c.Sound vs before →
    c.Early before c' →
    List.Forall₂ Config.Same (trace natives fuel c) (traceBy (stepEarly natives) fuel c') ∧
      EndedEarly (before ++ births (trace natives fuel c)) (run natives fuel c)
        (runBy (stepEarly natives) fuel c')
  | 0, _, _, _, _, _ => ⟨.nil, .none⟩
  | fuel + 1, before, c, c', hsound, h => by
    have hstep := step_early natives hsound h
    rw [trace_succ, traceBy, run_succ, runBy, births_cons, ← List.append_assoc]
    cases hnext : step natives c with
    | config c₁ =>
      rw [hnext] at hstep
      generalize stepEarly natives c' = next' at hstep ⊢
      cases hstep with
      | config h₁ =>
        have hsound₁ := step_sound hvs hn hsound hnext
        have hearly₁ := h₁.mono (List.prefix_append before c.birth?.toList)
        obtain ⟨htrace, hrun⟩ := run_early fuel hsound₁ hearly₁
        exact ⟨.cons h.same htrace, hrun⟩
    | halt result w =>
      rw [hnext] at hstep
      generalize stepEarly natives c' = next' at hstep ⊢
      cases hstep with
      | halt _ hw =>
        refine ⟨.cons h.same .nil, .some ⟨rfl, hw.mono ?_⟩⟩
        rw [List.append_assoc]
        exact List.prefix_append before _

/-- Statements that are run one after another. -/
theorem traceAll_early (fuel : Nat) : ∀ {ss : List Stmt} {before : List Birth} {w w' : World},
    (w.ground vs before).Sound → w.env = globals → Stmt.ScopedAll vs [] ss → w.Early before w' →
    List.Forall₂ Config.Same (traceAll natives fuel ss w)
        (traceAllBy (stepEarly natives) fuel ss w') ∧
      EndedEarly (before ++ births (traceAll natives fuel ss w)) (interpret natives fuel ss w)
        (interpretWith (runBy (stepEarly natives) fuel) ss w')
  | [], before, w, w', _, _, _, hw => by
    refine ⟨.nil, .some ⟨rfl, hw.mono (List.prefix_append before _)⟩⟩
  | s :: ss, before, w, w', hg, henv, hs, hw => by
    rw [Stmt.ScopedAll, s.afterLevels_nil] at hs
    have hstart := exec_sound hg henv hs.1
    obtain ⟨htrace, hrun⟩ := run_early hvs hn fuel hstart (.mk (.exec s) [] hw)
    rw [traceAll_cons, traceAllBy, interpret_cons, interpretWith]
    cases hx : execute natives fuel s w with
    | none =>
      rw [show run natives fuel ⟨.exec s, [], w⟩ = none from hx] at hrun
      generalize runBy (stepEarly natives) fuel ⟨.exec s, [], w'⟩ = ended at hrun ⊢
      cases hrun
      exact ⟨List.rel_append htrace .nil, .none⟩
    | some outcome =>
      obtain ⟨result, w₁⟩ := outcome
      obtain ⟨hg₁, henv₁⟩ := run_sound hvs hn fuel hstart hx
      rw [show run natives fuel ⟨.exec s, [], w⟩ = some (result, w₁) from hx] at hrun
      generalize runBy (stepEarly natives) fuel ⟨.exec s, [], w'⟩ = ended at hrun ⊢
      cases hrun with
      | @some _ ended hended =>
        obtain ⟨result', w₁'⟩ := ended
        obtain ⟨rfl, hw₁⟩ := hended
        cases result' with
        | error e =>
          refine ⟨List.rel_append htrace .nil, .some ⟨rfl, ?_⟩⟩
          rw [List.append_nil]
          exact hw₁
        | ok flow =>
          -- The rest starts on the ground that the first statement leaves.
          obtain ⟨hrest, hfinal⟩ := traceAll_early fuel hg₁ henv₁ hs.2 hw₁
          refine ⟨List.rel_append htrace hrest, ?_⟩
          rw [births_append, ← List.append_assoc]
          exact hfinal

end

end Nya.Machine
