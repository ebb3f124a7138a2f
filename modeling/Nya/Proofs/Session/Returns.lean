import Nya.Proofs.Machine.History
import Nya.Proofs.Machine.Returns

/-!
# Returns stay inside of functions

Resolution refuses a return outside of functions. So a statement of a program never ends in a
return: the returns that are executed on its way are those of calls, and each ends at its call.

* `Stmt.strays` for a return outside of functions, and `Machine.run_noReturn`
* `Session.returns_contained`
-/

namespace Nya

/-! ## Stray returns -/

mutual

/-- Whether there is a return in a statement that no function of the statement is around. -/
def Stmt.strays : Stmt → Bool
  | .ret _ _ => true
  | .block body => Stmt.straysAny body
  | .branch _ thenBranch none => thenBranch.strays
  | .branch _ thenBranch (some elseBranch) => thenBranch.strays || elseBranch.strays
  | .loop _ body => body.strays
  | .expression _ | .print _ | .var _ _ | .function _ _ _ _ => false

/-- Whether there is such a return in one of the statements. -/
def Stmt.straysAny : List Stmt → Bool
  | [] => false
  | s :: ss => s.strays || Stmt.straysAny ss

end

theorem Stmt.straysAny_eq_false_iff {ss : List Stmt} :
    Stmt.straysAny ss = false ↔ ∀ s ∈ ss, s.strays = false := by
  induction ss with
  | nil => simp [Stmt.straysAny]
  | cons s ss ih => simp [Stmt.straysAny, ih]

mutual

/-- A program without faults has no stray returns. -/
theorem Stmt.strays_of_scopeErrors : ∀ (scopes : Scopes) (s : Stmt),
    s.scopeErrors false scopes = [] → s.strays = false
  | _, .expression _, _ | _, .print _, _ | _, .var _ _, _ | _, .function _ _ _ _, _ => rfl
  | scopes, .block body, h => Stmt.strays_of_scopeErrorsAll ([] :: scopes) body h
  | scopes, .branch _ t none, h => by
    rw [Stmt.scopeErrors, List.append_eq_nil_iff] at h
    exact Stmt.strays_of_scopeErrors scopes t h.2
  | scopes, .branch _ t (some e), h => by
    rw [Stmt.scopeErrors, List.append_eq_nil_iff, List.append_eq_nil_iff] at h
    rw [Stmt.strays, Stmt.strays_of_scopeErrors scopes t h.1.2,
      Stmt.strays_of_scopeErrors (t.after scopes) e h.2]
    rfl
  | scopes, .loop _ body, h => by
    rw [Stmt.scopeErrors, List.append_eq_nil_iff] at h
    exact Stmt.strays_of_scopeErrors scopes body h.2
  | _, .ret _ _, h => by simp [Stmt.scopeErrors] at h

theorem Stmt.strays_of_scopeErrorsAll : ∀ (scopes : Scopes) (ss : List Stmt),
    Stmt.scopeErrorsAll false scopes ss = [] → Stmt.straysAny ss = false
  | _, [], _ => rfl
  | scopes, s :: ss, h => by
    rw [Stmt.scopeErrorsAll, List.append_eq_nil_iff] at h
    rw [Stmt.straysAny, Stmt.strays_of_scopeErrors scopes s h.1,
      Stmt.strays_of_scopeErrorsAll (s.after scopes) ss h.2]
    rfl

end

mutual

theorem Stmt.strays_resolve : ∀ (scopes : Scopes) (s : Stmt),
    (s.resolve scopes).strays = s.strays
  | _, .expression _ | _, .print _ | _, .var _ _ | _, .function _ _ _ _ | _, .ret _ _ => rfl
  | scopes, .block body => Stmt.strays_resolveAll ([] :: scopes) body
  | scopes, .branch _ t none => Stmt.strays_resolve scopes t
  | scopes, .branch _ t (some e) => by
    rw [Stmt.resolve, Stmt.strays, Stmt.strays, Stmt.strays_resolve scopes t,
      Stmt.strays_resolve (t.after scopes) e]
  | scopes, .loop _ body => Stmt.strays_resolve scopes body

theorem Stmt.strays_resolveAll : ∀ (scopes : Scopes) (ss : List Stmt),
    Stmt.straysAny (Stmt.resolveAll scopes ss) = Stmt.straysAny ss
  | _, [] => rfl
  | scopes, s :: ss => by
    rw [Stmt.resolveAll, Stmt.straysAny, Stmt.straysAny, Stmt.strays_resolve scopes s,
      Stmt.strays_resolveAll (s.after scopes) ss]

end

namespace Machine

/-! ## Runs without stray returns -/

/-- The value is not to be returned, and no statement that it decides on returns. -/
def Purpose.NoReturn : Purpose → Prop
  | .discard | .print | .define _ => True
  | .choose thenBranch elseBranch =>
    thenBranch.strays = false ∧ ∀ s ∈ elseBranch, s.strays = false
  | .iterate _ body => body.strays = false
  | .ret => False

/-- What the task still has to do returns nothing. -/
def Task.NoReturn : Task → Prop
  | .sequence rest => Stmt.straysAny rest = false
  | .again _ body => body.strays = false
  | .leave _ => True
  | .back _ caller => caller.purpose.NoReturn

/-- What is done next returns nothing. -/
def Focus.NoReturn : Focus → Prop
  | .eval _ context | .give _ context => context.purpose.NoReturn
  | .exec s => s.strays = false
  | .execAll ss => Stmt.straysAny ss = false
  | .finish .completed | .raise _ => True
  | .finish (.returning _) => False

/-- The tasks without a call below are meant; those above a call belong to a function. -/
def NoReturnOn : List Task → Prop
  | [] => True
  | task :: stack => (outermost? stack = none → task.NoReturn) ∧ NoReturnOn stack

/-- Nothing that is to be done outside of calls is a return. -/
structure Config.NoReturn (c : Config) : Prop where
  focus : outermost? c.stack = none → c.focus.NoReturn
  stack : NoReturnOn c.stack

variable {natives : Array Native} {stack : List Task} {w : World}

theorem Within.noReturn {purpose : Purpose} {c : Config} (h : Within purpose stack c)
    (hpurpose : outermost? stack = none → purpose.NoReturn) (hstack : NoReturnOn stack) :
    c.NoReturn := by
  cases h with
  | eval | give => exact ⟨hpurpose, hstack⟩
  | enter => exact ⟨nofun, hpurpose, hstack⟩
  | raise => exact ⟨fun _ => trivial, hstack⟩

theorem noReturn_fulfil {v : Value} {purpose : Purpose}
    (hpurpose : outermost? stack = none → purpose.NoReturn) (hstack : NoReturnOn stack) :
    (fulfil v purpose stack w).NoReturn := by
  cases purpose with
  | discard | print | define name => exact ⟨fun _ => trivial, hstack⟩
  | choose thenBranch elseBranch =>
    simp only [fulfil]
    split
    · exact ⟨fun houter => (hpurpose houter).1, hstack⟩
    · cases elseBranch with
      | some s => exact ⟨fun houter => (hpurpose houter).2 s rfl, hstack⟩
      | none => exact ⟨fun _ => trivial, hstack⟩
  | iterate condition body =>
    simp only [fulfil]
    split
    · exact ⟨hpurpose, hpurpose, hstack⟩
    · exact ⟨fun _ => trivial, hstack⟩
  | ret => exact ⟨fun houter => hpurpose houter, hstack⟩

theorem noReturn_stepExec {s : Stmt} (hs : outermost? stack = none → s.strays = false)
    (hstack : NoReturnOn stack) : (stepExec s stack w).NoReturn := by
  cases s with
  | expression e | print e => exact ⟨fun _ => trivial, hstack⟩
  | var name init => cases init <;> exact ⟨fun _ => trivial, hstack⟩
  | block body => exact ⟨hs, fun _ => trivial, hstack⟩
  | branch condition thenBranch elseBranch =>
    refine ⟨fun houter => ?_, hstack⟩
    have hbranches := hs houter
    cases elseBranch <;>
      simpa [stepExec, Focus.NoReturn, Purpose.NoReturn, Stmt.strays] using hbranches
  | loop condition body => exact ⟨hs, hstack⟩
  | function id name params body => exact ⟨fun _ => trivial, hstack⟩
  | ret keyword value =>
    have hcall : outermost? stack ≠ none := fun houter => Bool.noConfusion (hs houter)
    cases value <;> exact ⟨fun houter => absurd houter hcall, hstack⟩

theorem noReturn_resume {flow : Flow} {task : Task}
    (h : Config.NoReturn ⟨.finish flow, task :: stack, w⟩) :
    (resume flow task stack w).NoReturn := by
  obtain ⟨hfocus, htask, hstack⟩ := h
  cases task with
  | back env caller => exact ⟨htask, hstack⟩
  | sequence rest =>
    cases flow with
    | completed => exact ⟨htask, hstack⟩
    | returning v => exact ⟨hfocus, hstack⟩
  | again condition body =>
    cases flow with
    | completed => exact ⟨htask, hstack⟩
    | returning v => exact ⟨hfocus, hstack⟩
  | leave env => exact ⟨hfocus, hstack⟩

/-- **A step makes no stray returns.** -/
theorem step_noReturn {c c' : Config} (h : step natives c = .config c') (hc : c.NoReturn) :
    c'.NoReturn := by
  obtain ⟨focus, stack, w⟩ := c
  obtain ⟨hfocus, hstack⟩ := hc
  cases focus with
  | eval e context =>
    cases h
    exact (within_stepEval context stack w e).noReturn hfocus hstack
  | give v context =>
    cases h
    obtain ⟨holes, purpose⟩ := context
    cases holes with
    | nil => exact noReturn_fulfil hfocus hstack
    | cons hole holes => exact (within_fill ⟨holes, purpose⟩ stack w v hole).noReturn hfocus hstack
  | exec s =>
    cases h
    exact noReturn_stepExec hfocus hstack
  | execAll ss =>
    cases ss with
    | nil =>
      cases h
      exact ⟨fun _ => trivial, hstack⟩
    | cons s ss =>
      cases h
      have hss : outermost? stack = none → s.strays = false ∧ Stmt.straysAny ss = false :=
        fun houter => Bool.or_eq_false_iff.mp (hfocus houter)
      exact ⟨fun houter => (hss houter).1, fun houter => (hss houter).2, hstack⟩
  | finish flow =>
    cases stack with
    | nil => cases h
    | cons task stack =>
      cases h
      exact noReturn_resume ⟨hfocus, hstack⟩
  | raise error =>
    cases stack with
    | nil => cases h
    | cons task stack =>
      cases h
      cases task <;> exact ⟨fun _ => trivial, hstack.2⟩

/-- **A run without stray returns completes**, or raises a fault. -/
theorem run_noReturn {fuel : Nat} {c : Config} {flow : Flow} {w : World} (hc : c.NoReturn)
    (h : run natives fuel c = some (.ok flow, w)) : flow = .completed := by
  induction fuel generalizing c with
  | zero => cases h
  | succ fuel ih =>
    rw [run_succ] at h
    cases hstep : step natives c with
    | config c' =>
      rw [hstep] at h
      exact ih (step_noReturn hstep hc) h
    | halt result w' =>
      rw [hstep] at h
      cases h
      rw [eq_of_step_halt hstep] at hc
      cases flow with
      | completed => rfl
      | returning v => exact (hc.focus rfl).elim

end Machine

namespace Session

/-- The statements of a program that is run have no stray returns. -/
theorem strays_of_read {s s' : Session} {source : String} {program : List Stmt}
    (h : s.read source = (.ok program, s')) : ∀ stmt ∈ program, stmt.strays = false := by
  obtain ⟨-, herrors, rfl⟩ := Reading.check_ok (congrArg Prod.fst h)
  rw [← Stmt.straysAny_eq_false_iff, resolve, Stmt.strays_resolveAll]
  exact Stmt.strays_of_scopeErrorsAll [] _ herrors

open Machine in
/--
**Returns stay inside of functions.** A statement of a program that is run completes or raises a
fault. And whenever a function is called, then, as long as the fuel allows, the activation goes on
above the tasks that were there before; after it has executed a return, it does nothing of its own
but leave; and when the call is left, then with a fault, or with the answer of the activation, the
value of the first return that it has executed.
-/
theorem returns_contained :
    (∀ (s s' : Session) (source : String) (program : List Stmt),
      s.read source = (.ok program, s') → ∀ stmt ∈ program,
      ∀ (natives : Array Native) (fuel : Nat) (w w' : World) (result : Except RuntimeError Flow),
        execute natives fuel stmt w = some (result, w') →
        result = .ok .completed ∨ ∃ error, result = .error error) ∧
    ∀ (natives : Array Native) (d : Declaration) (env : Env) (args : List Value) (paren : Token)
      (caller : Context) (stack : List Task) (w : World) (fuel : Nat), ∃ during rest,
      Machine.trace natives fuel (enterCall natives (.closure d env) args paren caller stack w) =
        during ++ rest ∧
      (∀ c ∈ during, .back w.env caller :: stack <:+ c.stack) ∧
      OnlyLeaves (.back w.env caller :: stack) during ∧
      (rest = [] ∧ during.length = fuel ∨
        ∃ c more, rest = c :: more ∧ c.stack = stack ∧
          ((∃ error, c.focus = .raise error) ∨
            ∃ v, c.focus = .give v caller ∧
              Answer natives (.back w.env caller :: stack) during v)) := by
  refine ⟨?_, ?_⟩
  · intro s s' source program hread stmt hstmt natives fuel w w' result hrun
    cases result with
    | error e => exact Or.inr ⟨e, rfl⟩
    | ok flow =>
      have hstart : Config.NoReturn ⟨.exec stmt, [], w⟩ :=
        ⟨fun _ => strays_of_read hread stmt hstmt, trivial⟩
      rw [run_noReturn hstart hrun]
      exact Or.inl rfl
  · intro natives d env args paren caller stack w fuel
    -- The body alone, without the tasks that were there before the call.
    let body : Config := ⟨.execAll d.body, [],
      ({ w with calls := w.calls + 1 }.enter env).bindParams d.params args⟩
    have hbody : ¬ body.Leaving := id
    obtain ⟨rest, htrace, hrest⟩ := trace_over (.back w.env caller) stack fuel body
    refine ⟨_, rest, htrace, ?_, onlyLeaves_trace fuel body, ?_⟩
    · intro c hc
      obtain ⟨c, -, rfl⟩ := List.mem_map.mp hc
      exact List.suffix_append c.stack _
    rcases hrest with ⟨hnil, hlength⟩ | ⟨result, w', c, more, hrun, hstep, hcons⟩
    · exact Or.inl ⟨hnil, by rw [List.length_map, hlength]⟩
    refine Or.inr ⟨c, more, hcons, ?_⟩
    cases result with
    | error e =>
      cases hstep
      exact ⟨rfl, Or.inl ⟨e, rfl⟩⟩
    | ok flow =>
      cases hstep
      exact ⟨rfl, Or.inr ⟨flow.result, rfl, answer_of_run hbody hrun⟩⟩

/-- A function that returns from a block in a loop without an end, and a call of it. -/
def brokenLoop : String := ":D f(x) :> ^w^ (twue) :> :> c: x; <: pwint x; <: <: pwint f(f);"

open Machine in
/-- The return ends the loop and the call, and the statement around the call completes. -/
theorem returns_contained_brokenLoop :
    ∃ f call s w₁ w₂, (new Native.standard {}).read brokenLoop = (.ok [f, call], s) ∧
      execute s.natives 100 f s.world = some (.ok .completed, w₁) ∧
      execute s.natives 100 call w₁ = some (.ok .completed, w₂) := by
  have hruns : ((new Native.standard {}).read brokenLoop).1.toOption.bind (fun program =>
      let s := ((new Native.standard {}).read brokenLoop).2
      program[0]?.bind fun f => program[1]?.bind fun call =>
        (execute s.natives 100 f s.world).bind fun first =>
          (execute s.natives 100 call first.2).map fun second =>
            (program.length, first.1.isOk, second.1.isOk)) = some (2, true, true) := by
    decide +kernel
  have hcompleted := returns_contained.1
  cases hread : (new Native.standard {}).read brokenLoop with
  | mk result s =>
    rw [hread] at hruns
    cases result with
    | error ds => cases hruns
    | ok program =>
      have hstmt := hcompleted _ s brokenLoop program hread
      simp only [Except.toOption, Option.bind_some] at hruns
      obtain ⟨f, hf, hruns⟩ := Option.bind_eq_some_iff.mp hruns
      obtain ⟨call, hcall, hruns⟩ := Option.bind_eq_some_iff.mp hruns
      obtain ⟨⟨first, w₁⟩, hfirst, hruns⟩ := Option.bind_eq_some_iff.mp hruns
      obtain ⟨⟨second, w₂⟩, hsecond, hruns⟩ := Option.map_eq_some_iff.mp hruns
      simp only [Prod.mk.injEq] at hruns
      obtain ⟨hlength, hok₁, hok₂⟩ := hruns
      obtain ⟨f', call', rfl⟩ := List.length_eq_two.mp hlength
      cases hf
      cases hcall
      rcases hstmt f (by simp) s.natives 100 s.world w₁ first hfirst with rfl | ⟨error, rfl⟩
      · rcases hstmt call (by simp) s.natives 100 w₁ w₂ second hsecond with rfl | ⟨error, rfl⟩
        · exact ⟨f, call, s, w₁, w₂, rfl, hfirst, hsecond⟩
        · cases hok₂
      · cases hok₁

end Session

end Nya
