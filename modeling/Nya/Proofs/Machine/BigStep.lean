import Nya.Proofs.Machine.Returns

/-!
# What statements do

A run of one statement, taken as a whole: from a world to the way in which the statement ends and
the world that it leaves. Seen so, a block is its statements one after another in a scope of its
own, and a loop is its test and its body again and again; nothing is left of the stack.

* `ExecutesTo`, `EvaluatesTo` for runs as a whole
* `Then`, `InScope`, `Iterates` for the ways to put actions together
* `executesTo_expression`, `executesTo_block`, `executesTo_loop`
-/

namespace Nya.Machine

variable {natives : Array Native} {r : Except RuntimeError Flow} {c c' : Config}
  {result : Except RuntimeError Value}

/-! ## Actions -/

/-- What can be done: from a world to how it ends and the world then. -/
abbrev Action (α : Type) : Type := World → α → World → Prop

/-- Nothing is done. -/
inductive Done : Action (Except RuntimeError Flow)
  | intro (w : World) : Done w (.ok .completed) w

/-- Nothing is tested. -/
inductive Passes : Action (Except RuntimeError Bool)
  | intro (w : World) : Passes w (.ok true) w

/-- The first action and, if it ran to its end, the second one. -/
inductive Then (first second : Action (Except RuntimeError Flow)) :
    Action (Except RuntimeError Flow)
  | stopped {w w' : World} {r : Except RuntimeError Flow} (h : first w r w')
    (hr : r ≠ .ok .completed) : Then first second w r w'
  | passed {w w₁ w' : World} {r : Except RuntimeError Flow} (h : first w (.ok .completed) w₁)
    (h' : second w₁ r w') : Then first second w r w'

/-- The action in a new scope, which is left however the action ends. -/
inductive InScope (action : Action (Except RuntimeError Flow)) : Action (Except RuntimeError Flow)
  | intro {w w' : World} {r : Except RuntimeError Flow} (h : action (w.enter w.env) r w') :
    InScope action w r (w'.leave w.env)

/-- The turn again and again, as long as the test before it holds and it runs to its end. -/
inductive Iterates (test : Action (Except RuntimeError Bool))
    (turn : Action (Except RuntimeError Flow)) : Action (Except RuntimeError Flow)
  | ended {w w' : World} (htest : test w (.ok false) w') : Iterates test turn w (.ok .completed) w'
  | faulty {w w' : World} {e : RuntimeError} (htest : test w (.error e) w') :
    Iterates test turn w (.error e) w'
  | stopped {w w₁ w' : World} {r : Except RuntimeError Flow} (htest : test w (.ok true) w₁)
    (hturn : turn w₁ r w') (hr : r ≠ .ok .completed) : Iterates test turn w r w'
  | again {w w₁ w₂ w' : World} {r : Except RuntimeError Flow} (htest : test w (.ok true) w₁)
    (hturn : turn w₁ (.ok .completed) w₂) (hrest : Iterates test turn w₂ r w') :
    Iterates test turn w r w'

/-- With nothing to do afterwards, only the first action is done. -/
theorem then_done (first : Action (Except RuntimeError Flow)) : Then first Done = first := by
  funext w r w'
  refine propext ⟨fun h => ?_, fun h => ?_⟩
  · cases h with
    | stopped h _ => exact h
    | passed h h' =>
      cases h'
      exact h
  · by_cases hr : r = .ok .completed
    · subst hr
      exact .passed h (.intro w')
    · exact .stopped h hr

/-! ## Runs as a whole -/

variable (natives) in
/-- The run from the configuration ends in the given way, with whatever fuel it takes. -/
def Ends (c : Config) (r : Except RuntimeError Flow) (w : World) : Prop :=
  ∃ fuel, run natives fuel c = some (r, w)

variable (natives) in
/-- What the statement does. -/
def ExecutesTo (s : Stmt) : Action (Except RuntimeError Flow) := fun w r w' =>
  ∃ fuel, execute natives fuel s w = some (r, w')

variable (natives) in
/-- What the statements do, one after another. -/
def ExecutesAllTo : List Stmt → Action (Except RuntimeError Flow)
  | [] => Done
  | s :: ss => Then (ExecutesTo natives s) (ExecutesAllTo ss)

variable (natives) in
/-- What the expression does. -/
def EvaluatesTo (e : Expr) : Action (Except RuntimeError Value) := fun w result w' =>
  ∃ fuel, evaluate natives fuel e w = some (result, w')

variable (natives) in
/-- What the expression does where only the truth of its value counts. -/
def Tests (e : Expr) : Action (Except RuntimeError Bool) := fun w result w' =>
  ∃ value, EvaluatesTo natives e w value w' ∧ result = value.map Value.isTruthy

variable (natives) in
/-- What the expression does where its value does not count. -/
def Performs (e : Expr) : Action (Except RuntimeError Flow) := fun w result w' =>
  ∃ value, EvaluatesTo natives e w value w' ∧ result = value.map fun _ => .completed

theorem ends_step {w : World} (h : step natives c = .config c') :
    Ends natives c r w ↔ Ends natives c' r w := by
  constructor
  · rintro ⟨fuel, hrun⟩
    cases fuel with
    | zero => cases hrun
    | succ fuel =>
      rw [run_succ, h] at hrun
      exact ⟨fuel, hrun⟩
  · rintro ⟨fuel, hrun⟩
    exact ⟨fuel + 1, by rw [run_succ, h]; exact hrun⟩

theorem ends_ofResult {r r' : Except RuntimeError Flow} {w w' : World} :
    Ends natives ⟨.ofResult r, [], w⟩ r' w' ↔ r' = r ∧ w' = w := by
  have hstep : step natives ⟨.ofResult r, [], w⟩ = .halt r w := by cases r <;> rfl
  constructor
  · rintro ⟨fuel, hrun⟩
    cases fuel with
    | zero => cases hrun
    | succ fuel =>
      rw [run_succ, hstep] at hrun
      cases hrun
      exact ⟨rfl, rfl⟩
  · rintro ⟨rfl, rfl⟩
    exact ⟨1, by rw [run_succ, hstep]⟩

theorem ends_raise {e : RuntimeError} {w w' : World} :
    Ends natives ⟨.raise e, [], w⟩ r w' ↔ r = .error e ∧ w' = w :=
  @ends_ofResult natives (.error e) r w w'

/-- A run above other tasks is the run alone, and then the tasks. -/
theorem ends_over {base : List Task} {c : Config} {w : World} :
    Ends natives (c.over base) r w ↔
      ∃ r₁ w₁, Ends natives c r₁ w₁ ∧ Ends natives ⟨.ofResult r₁, base, w₁⟩ r w := by
  constructor
  · rintro ⟨fuel, hrun⟩
    obtain ⟨n, r₁, w₁, m, -, hfirst, hrest⟩ := run_over hrun
    exact ⟨r₁, w₁, ⟨n, hfirst⟩, ⟨m, hrest⟩⟩
  · rintro ⟨r₁, w₁, ⟨n, hfirst⟩, hrest⟩
    induction n generalizing c with
    | zero => cases hfirst
    | succ n ih =>
      rw [run_succ] at hfirst
      cases hstep : step natives c with
      | config c' =>
        rw [hstep] at hfirst
        exact (ends_step (step_over hstep)).mpr (ih hfirst)
      | halt r₁' w₁' =>
        rw [hstep] at hfirst
        cases hfirst
        rw [eq_of_step_halt hstep]
        exact hrest

/-! ## Expressions for any purpose -/

/-- What a run is about when the expression has a value, or a fault has ended it. -/
def Focus.ofValue (purpose : Purpose) : Except RuntimeError Value → Focus
  | .ok v => .give v ⟨[], purpose⟩
  | .error e => .raise e

/--
The two configurations evaluate the same expression: the first one for its value only, and the
second one for the purpose, above the tasks. A call inside the expression has all of the stack to
itself, up to what waits for it.
-/
inductive Serves (purpose : Purpose) (base : List Task) : Config → Config → Prop
  | eval (e : Expr) (holes : List Hole) (w : World) :
    Serves purpose base ⟨.eval e ⟨holes, .ret⟩, [], w⟩ ⟨.eval e ⟨holes, purpose⟩, base, w⟩
  | give (v : Value) (holes : List Hole) (w : World) :
    Serves purpose base ⟨.give v ⟨holes, .ret⟩, [], w⟩ ⟨.give v ⟨holes, purpose⟩, base, w⟩
  | raise (e : RuntimeError) (w : World) :
    Serves purpose base ⟨.raise e, [], w⟩ ⟨.raise e, base, w⟩
  | inside (c : Config) (env : Env) (holes : List Hole) :
    Serves purpose base (c.over [.back env ⟨holes, .ret⟩])
      (c.over (.back env ⟨holes, purpose⟩ :: base))

section

variable (purpose : Purpose) (base : List Task) (holes : List Hole) (w : World)

theorem serves_stepEval (e : Expr) :
    Serves purpose base (stepEval e ⟨holes, .ret⟩ [] w) (stepEval e ⟨holes, purpose⟩ base w) := by
  cases e with
  | literal id value => exact .give _ holes w
  | read target =>
    simp only [stepEval]
    cases w.read? target with
    | some v => exact .give v holes w
    | none => exact .raise _ w
  | assign target value => exact .eval value (_ :: holes) w
  | unary id operator right => exact .eval right (_ :: holes) w
  | binary id left operator right => exact .eval left (_ :: holes) w
  | logical id left operator right => exact .eval left (_ :: holes) w
  | group id inner => exact .eval inner holes w
  | call id callee arguments paren => exact .eval callee (_ :: holes) w

theorem serves_yield (result : Except RuntimeError Value) :
    Serves purpose base (yield result ⟨holes, .ret⟩ [] w)
      (yield result ⟨holes, purpose⟩ base w) := by
  cases result with
  | ok v => exact .give v holes w
  | error e => exact .raise e w

theorem serves_enterCall (callee : Value) (args : List Value) (paren : Token) :
    Serves purpose base (enterCall natives callee args paren ⟨holes, .ret⟩ [] w)
      (enterCall natives callee args paren ⟨holes, purpose⟩ base w) := by
  cases callee with
  | native f =>
    simp only [enterCall]
    cases natives[f.id]? with
    | none => exact .raise _ w
    | some native =>
      simp only [callNative]
      split
      · exact .give _ holes _
      · exact .raise _ _
  | closure d env =>
    exact .inside ⟨.execAll d.body, [],
      ({ w with calls := w.calls + 1 }.enter env).bindParams d.params args⟩ w.env holes
  | _ => exact .raise _ w

theorem serves_call (callee : Value) (args : List Value) (paren : Token) :
    Serves purpose base (call natives callee args paren ⟨holes, .ret⟩ [] w)
      (call natives callee args paren ⟨holes, purpose⟩ base w) := by
  unfold call
  split
  · exact .raise _ w
  · split
    · exact .raise _ w
    · split
      · exact .raise _ w
      · exact serves_enterCall purpose base holes w callee args paren

theorem serves_nextArgument (callee : Value) (done : List Value) (rest : List Expr)
    (paren : Token) :
    Serves purpose base (nextArgument natives callee done rest paren ⟨holes, .ret⟩ [] w)
      (nextArgument natives callee done rest paren ⟨holes, purpose⟩ base w) := by
  cases rest with
  | nil => exact serves_call purpose base holes w callee done.reverse paren
  | cons e rest => exact .eval e (_ :: holes) w

theorem serves_fill (v : Value) (hole : Hole) :
    Serves purpose base (fill natives v hole ⟨holes, .ret⟩ [] w)
      (fill natives v hole ⟨holes, purpose⟩ base w) := by
  cases hole with
  | assign target =>
    simp only [fill]
    cases w.holder? target with
    | some holder => exact .give v holes _
    | none => exact .raise _ w
  | unary operator => exact serves_yield purpose base holes w _
  | binaryLeft operator right => exact .eval right (_ :: holes) w
  | binaryRight left operator => exact serves_yield purpose base holes w _
  | logical operator right =>
    simp only [fill]
    split
    · exact .give v holes w
    · exact .eval right holes w
  | callee arguments paren => exact serves_nextArgument purpose base holes w v [] arguments paren
  | argument callee done rest paren =>
    exact serves_nextArgument purpose base holes w callee (v :: done) rest paren

end

variable (natives) in
/-- Both take a step, or the expression has been evaluated. -/
theorem step_serves {purpose : Purpose} {base : List Task} (h : Serves purpose base c c') :
    (∃ d d', step natives c = .config d ∧ step natives c' = .config d' ∧ Serves purpose base d d') ∨
      ∃ result w, c = ⟨.ofValue .ret result, [], w⟩ ∧ c' = ⟨.ofValue purpose result, base, w⟩ := by
  cases h with
  | eval e holes w => exact Or.inl ⟨_, _, rfl, rfl, serves_stepEval purpose base holes w e⟩
  | give v holes w =>
    cases holes with
    | nil => exact Or.inr ⟨.ok v, w, rfl, rfl⟩
    | cons hole holes => exact Or.inl ⟨_, _, rfl, rfl, serves_fill purpose base holes w v hole⟩
  | raise e w => exact Or.inr ⟨.error e, w, rfl, rfl⟩
  | inside c env holes =>
    cases hstep : step natives c with
    | config d => exact Or.inl ⟨_, _, step_over hstep, step_over hstep, .inside d env holes⟩
    | halt r w =>
      rw [eq_of_step_halt hstep]
      -- The call is over, and its answer goes to what has waited for it.
      cases r with
      | ok flow => exact Or.inl ⟨_, _, rfl, rfl, .give _ holes _⟩
      | error e => exact Or.inl ⟨_, _, rfl, rfl, .raise e _⟩

theorem ends_ofValue_ret {w w' : World} :
    Ends natives ⟨.ofValue .ret result, [], w⟩ r w' ↔ r = result.map .returning ∧ w' = w := by
  cases result with
  | ok v =>
    have hstep : step natives ⟨.ofValue .ret (.ok v), [], w⟩ =
        .config ⟨.ofResult (.ok (.returning v)), [], w⟩ := rfl
    rw [ends_step hstep]
    exact ends_ofResult
  | error e => exact ends_raise

/-- A run for the purpose that ends has had the value first, and needs no more fuel from there. -/
theorem run_serves {purpose : Purpose} {base : List Task} {fuel : Nat} {w : World}
    (h : Serves purpose base c c') (hrun : run natives fuel c' = some (r, w)) :
    ∃ result w₁ m, m ≤ fuel ∧ Ends natives c (result.map .returning) w₁ ∧
      run natives m ⟨.ofValue purpose result, base, w₁⟩ = some (r, w) := by
  induction fuel generalizing c c' with
  | zero => cases hrun
  | succ fuel ih =>
    rcases step_serves natives h with ⟨d, d', hd, hd', hserves⟩ | ⟨result, w₁, rfl, rfl⟩
    · rw [run_succ, hd'] at hrun
      obtain ⟨result, w₁, m, hm, hfirst, hrest⟩ := ih hserves hrun
      exact ⟨result, w₁, m, Nat.le_succ_of_le hm, (ends_step hd).mpr hfirst, hrest⟩
    · exact ⟨result, w₁, fuel + 1, Nat.le_refl _, ends_ofValue_ret.mpr ⟨rfl, rfl⟩, hrun⟩

theorem ends_of_serves {purpose : Purpose} {base : List Task} {w₁ w : World}
    (h : Serves purpose base c c') (hfirst : Ends natives c (result.map .returning) w₁)
    (hrest : Ends natives ⟨.ofValue purpose result, base, w₁⟩ r w) : Ends natives c' r w := by
  obtain ⟨fuel, hrun⟩ := hfirst
  induction fuel generalizing c c' with
  | zero => cases hrun
  | succ fuel ih =>
    rcases step_serves natives h with ⟨d, d', hd, hd', hserves⟩ | ⟨result', w₁', rfl, rfl⟩
    · rw [run_succ, hd] at hrun
      exact (ends_step hd').mpr (ih hserves hrun)
    · obtain ⟨hresult, rfl⟩ := ends_ofValue_ret.mp ⟨fuel + 1, hrun⟩
      have hsame : result' = result := by
        cases result <;> cases result' <;> cases hresult <;> rfl
      rwa [hsame]

/-- The value of an expression is what a return of it answers. -/
theorem evaluatesTo_eq (e : Expr) :
    EvaluatesTo natives e = fun w result w' =>
      ∃ r, Ends natives ⟨.eval e ⟨[], .ret⟩, [], w⟩ r w' ∧ result = r.map Flow.result := by
  funext w result w'
  refine propext ⟨?_, ?_⟩
  · rintro ⟨fuel, heval⟩
    obtain ⟨⟨r, w₁⟩, hrun, hend⟩ := Option.map_eq_some_iff.mp heval
    cases hend
    exact ⟨r, ⟨fuel, hrun⟩, rfl⟩
  · rintro ⟨r, ⟨fuel, hrun⟩, rfl⟩
    exact ⟨fuel, by rw [evaluate, hrun]; rfl⟩

theorem evaluatesTo_iff {e : Expr} {w w' : World} :
    EvaluatesTo natives e w result w' ↔
      Ends natives ⟨.eval e ⟨[], .ret⟩, [], w⟩ (result.map .returning) w' := by
  rw [evaluatesTo_eq]
  constructor
  · rintro ⟨r, ⟨fuel, hrun⟩, rfl⟩
    obtain ⟨result, w₂, m, -, hfirst, hrest⟩ := run_serves (.eval e [] w) hrun
    obtain ⟨rfl, rfl⟩ := ends_ofValue_ret.mp ⟨m, hrest⟩
    cases result <;> exact hfirst
  · intro hends
    exact ⟨_, hends, by cases result <;> rfl⟩

/-- An expression is evaluated first, whatever for. -/
theorem ends_eval {purpose : Purpose} {base : List Task} {e : Expr} {w w' : World} :
    Ends natives ⟨.eval e ⟨[], purpose⟩, base, w⟩ r w' ↔ ∃ result w₁,
      EvaluatesTo natives e w result w₁ ∧
        Ends natives ⟨.ofValue purpose result, base, w₁⟩ r w' := by
  constructor
  · rintro ⟨fuel, hrun⟩
    obtain ⟨result, w₁, m, -, hfirst, hrest⟩ := run_serves (.eval e [] w) hrun
    exact ⟨result, w₁, evaluatesTo_iff.mpr hfirst, m, hrest⟩
  · rintro ⟨result, w₁, heval, hrest⟩
    exact ends_of_serves (.eval e [] w) (evaluatesTo_iff.mp heval) hrest

/-! ## Statements -/

theorem step_leave (r : Except RuntimeError Flow) (env : Env) (stack : List Task) (w : World) :
    step natives ⟨.ofResult r, .leave env :: stack, w⟩ =
      .config ⟨.ofResult r, stack, w.leave env⟩ := by
  cases r <;> rfl

/-- What was to follow is dropped. -/
theorem step_sequence (hr : r ≠ .ok .completed) (rest : List Stmt) (stack : List Task) (w : World) :
    step natives ⟨.ofResult r, .sequence rest :: stack, w⟩ = .config ⟨.ofResult r, stack, w⟩ := by
  cases r with
  | error e => rfl
  | ok flow =>
    cases flow with
    | completed => exact absurd rfl hr
    | returning v => rfl

/-- What was to be repeated is dropped. -/
theorem step_again (hr : r ≠ .ok .completed) (condition : Expr) (body : Stmt) (stack : List Task)
    (w : World) :
    step natives ⟨.ofResult r, .again condition body :: stack, w⟩ =
      .config ⟨.ofResult r, stack, w⟩ := by
  cases r with
  | error e => rfl
  | ok flow =>
    cases flow with
    | completed => exact absurd rfl hr
    | returning v => rfl

theorem ends_execAll {ss : List Stmt} {base : List Task} {w w' : World} :
    Ends natives ⟨.execAll ss, base, w⟩ r w' ↔ ∃ r₁ w₁,
      ExecutesAllTo natives ss w r₁ w₁ ∧ Ends natives ⟨.ofResult r₁, base, w₁⟩ r w' := by
  induction ss generalizing w with
  | nil =>
    have hstep : step natives ⟨.execAll [], base, w⟩ =
        .config ⟨.ofResult (.ok .completed), base, w⟩ := rfl
    rw [ends_step hstep]
    constructor
    · exact fun h => ⟨_, w, .intro w, h⟩
    · rintro ⟨r₁, w₁, hdone, h⟩
      cases hdone
      exact h
  | cons s ss ih =>
    have hstep : step natives ⟨.execAll (s :: ss), base, w⟩ =
        .config (Config.over (.sequence ss :: base) ⟨.exec s, [], w⟩) := rfl
    have hnext (w₁ : World) : step natives ⟨.ofResult (.ok .completed), .sequence ss :: base, w₁⟩ =
        .config ⟨.execAll ss, base, w₁⟩ := rfl
    rw [ends_step hstep, ends_over]
    constructor
    · rintro ⟨r₁, w₁, hs, h⟩
      by_cases hr : r₁ = .ok .completed
      · subst hr
        rw [ends_step (hnext w₁), ih] at h
        obtain ⟨r₂, w₂, hss, h⟩ := h
        exact ⟨r₂, w₂, .passed hs hss, h⟩
      · rw [ends_step (step_sequence hr ss base w₁)] at h
        exact ⟨r₁, w₁, .stopped hs hr, h⟩
    · rintro ⟨r₁, w₁, hall, h⟩
      cases hall with
      | stopped hs hr => exact ⟨r₁, w₁, hs, (ends_step (step_sequence hr ss base w₁)).mpr h⟩
      | passed hs hss => exact ⟨_, _, hs, (ends_step (hnext _)).mpr (ih.mpr ⟨r₁, w₁, hss, h⟩)⟩

/-- A block does what its statements do in a new scope. -/
theorem executesTo_block (body : List Stmt) :
    ExecutesTo natives (.block body) = InScope (ExecutesAllTo natives body) := by
  funext w r w'
  have hstep : step natives ⟨.exec (.block body), [], w⟩ =
      .config ⟨.execAll body, [.leave w.env], w.enter w.env⟩ := rfl
  have hblock : ExecutesTo natives (.block body) w r w' ↔ ∃ r₁ w₁,
      ExecutesAllTo natives body (w.enter w.env) r₁ w₁ ∧ r = r₁ ∧ w' = w₁.leave w.env := by
    refine (ends_step hstep).trans (ends_execAll.trans ?_)
    simp only [ends_step (step_leave _ _ _ _), ends_ofResult]
  refine propext (hblock.trans ⟨?_, ?_⟩)
  · rintro ⟨r₁, w₁, hall, rfl, rfl⟩
    exact .intro hall
  · rintro ⟨hall⟩
    exact ⟨_, _, hall, rfl, rfl⟩

/-- An expression statement does what the expression does. -/
theorem executesTo_expression (e : Expr) :
    ExecutesTo natives (.expression e) = Performs natives e := by
  funext w r w'
  have hstep : step natives ⟨.exec (.expression e), [], w⟩ =
      .config ⟨.eval e ⟨[], .discard⟩, [], w⟩ := rfl
  have hgiven (result : Except RuntimeError Value) (w₁ : World) :
      Ends natives ⟨.ofValue .discard result, [], w₁⟩ r w' ↔
        r = result.map (fun _ => .completed) ∧ w' = w₁ := by
    cases result with
    | ok v =>
      have hfulfil : step natives ⟨.ofValue .discard (.ok v), [], w₁⟩ =
          .config ⟨.ofResult (.ok .completed), [], w₁⟩ := rfl
      rw [ends_step hfulfil]
      exact ends_ofResult
    | error e => exact ends_raise
  refine propext ((ends_step hstep).trans (ends_eval.trans ?_))
  simp only [hgiven]
  constructor
  · rintro ⟨result, w₁, heval, rfl, rfl⟩
    exact ⟨result, heval, rfl⟩
  · rintro ⟨result, heval, rfl⟩
    exact ⟨result, w', heval, rfl, rfl⟩

section

variable {condition : Expr} {body : Stmt}

theorem step_test_true {v : Value} (hv : v.isTruthy = true) (w : World) :
    step natives ⟨.ofValue (.iterate condition body) (.ok v), [], w⟩ =
      .config (Config.over [.again condition body] ⟨.exec body, [], w⟩) := by
  show Next.config (fulfil v (.iterate condition body) [] w) = _
  rw [fulfil, if_pos hv]
  rfl

theorem step_test_false {v : Value} (hv : v.isTruthy = false) (w : World) :
    step natives ⟨.ofValue (.iterate condition body) (.ok v), [], w⟩ =
      .config ⟨.ofResult (.ok .completed), [], w⟩ := by
  show Next.config (fulfil v (.iterate condition body) [] w) = _
  rw [fulfil, if_neg (by rw [hv]; simp)]
  rfl

/-- A step of a run uses up fuel. -/
theorem run_config {fuel : Nat} {r : Except RuntimeError Flow × World}
    (hstep : step natives c = .config c') (h : run natives fuel c = some r) :
    ∃ n < fuel, run natives n c' = some r := by
  cases fuel with
  | zero => cases h
  | succ fuel =>
    rw [run_succ, hstep] at h
    exact ⟨fuel, Nat.lt_succ_self fuel, h⟩

-- By induction on the fuel: each turn takes some of it.
theorem iterates_of_run (fuel : Nat) : ∀ {w w' : World} {r : Except RuntimeError Flow},
    run natives fuel ⟨.eval condition ⟨[], .iterate condition body⟩, [], w⟩ = some (r, w') →
    Iterates (Tests natives condition) (ExecutesTo natives body) w r w' := by
  induction fuel using Nat.strongRecOn with
  | ind fuel ih =>
    intro w w' r hrun
    obtain ⟨result, w₁, m, hm, hfirst, hrest⟩ := run_serves (.eval condition [] w) hrun
    have heval : EvaluatesTo natives condition w result w₁ := evaluatesTo_iff.mpr hfirst
    cases result with
    | error e =>
      obtain ⟨rfl, rfl⟩ := ends_raise.mp ⟨m, hrest⟩
      exact .faulty ⟨_, heval, rfl⟩
    | ok v =>
      cases hv : v.isTruthy with
      | false =>
        have hend := (ends_step (step_test_false hv w₁)).mp ⟨m, hrest⟩
        obtain ⟨rfl, rfl⟩ := ends_ofResult.mp hend
        exact .ended ⟨_, heval, congrArg Except.ok hv.symm⟩
      | true =>
        have htest : Tests natives condition w (.ok true) w₁ :=
          ⟨_, heval, congrArg Except.ok hv.symm⟩
        obtain ⟨k, hk, hover⟩ := run_config (step_test_true hv w₁) hrest
        obtain ⟨n, r₁, w₂, j, hj, hbody, hnext⟩ := run_over hover
        by_cases hr : r₁ = .ok .completed
        · subst hr
          obtain ⟨i, hi, hagain⟩ := run_config rfl hnext
          exact .again htest ⟨n, hbody⟩ (ih i (by omega) hagain)
        · have hend := (ends_step (step_again hr condition body [] w₂)).mp ⟨j, hnext⟩
          obtain ⟨rfl, rfl⟩ := ends_ofResult.mp hend
          exact .stopped htest ⟨n, hbody⟩ hr

theorem ends_of_iterates {w w' : World}
    (h : Iterates (Tests natives condition) (ExecutesTo natives body) w r w') :
    Ends natives ⟨.eval condition ⟨[], .iterate condition body⟩, [], w⟩ r w' := by
  have htruth {w w₁ : World} {b : Bool} (htest : Tests natives condition w (.ok b) w₁) :
      ∃ v : Value, EvaluatesTo natives condition w (.ok v) w₁ ∧ v.isTruthy = b := by
    obtain ⟨value, heval, hb⟩ := htest
    cases value with
    | ok v => exact ⟨v, heval, (Except.ok.inj hb).symm⟩
    | error e => cases hb
  induction h with
  | ended htest =>
    obtain ⟨v, heval, hv⟩ := htruth htest
    refine ends_eval.mpr ⟨_, _, heval, ?_⟩
    exact (ends_step (step_test_false hv _)).mpr (ends_ofResult.mpr ⟨rfl, rfl⟩)
  | faulty htest =>
    obtain ⟨value, heval, he⟩ := htest
    cases value with
    | ok v => cases he
    | error e =>
      cases he
      exact ends_eval.mpr ⟨_, _, heval, ends_raise.mpr ⟨rfl, rfl⟩⟩
  | stopped htest hturn hr =>
    obtain ⟨v, heval, hv⟩ := htruth htest
    refine ends_eval.mpr ⟨_, _, heval, ?_⟩
    refine (ends_step (step_test_true hv _)).mpr (ends_over.mpr ⟨_, _, hturn, ?_⟩)
    exact (ends_step (step_again hr _ _ _ _)).mpr (ends_ofResult.mpr ⟨rfl, rfl⟩)
  | again htest hturn _ ih =>
    obtain ⟨v, heval, hv⟩ := htruth htest
    refine ends_eval.mpr ⟨_, _, heval, ?_⟩
    refine (ends_step (step_test_true hv _)).mpr (ends_over.mpr ⟨_, _, hturn, ?_⟩)
    exact (ends_step rfl).mpr ih

end

/-- A loop does what its test and its body do again and again. -/
theorem executesTo_loop (condition : Expr) (body : Stmt) :
    ExecutesTo natives (.loop condition body) =
      Iterates (Tests natives condition) (ExecutesTo natives body) := by
  funext w r w'
  have hstep : step natives ⟨.exec (.loop condition body), [], w⟩ =
      .config ⟨.eval condition ⟨[], .iterate condition body⟩, [], w⟩ := rfl
  refine propext ((ends_step hstep).trans ⟨?_, ends_of_iterates⟩)
  rintro ⟨fuel, hrun⟩
  exact iterates_of_run fuel hrun

/-- The test that is written `twue` tests nothing. -/
theorem tests_true (id : Nat) : Tests natives (.literal id (.boolean true)) = Passes := by
  funext w result w'
  have hstep : step natives ⟨.eval (.literal id (.boolean true)) ⟨[], .ret⟩, [], w⟩ =
      .config ⟨.ofValue .ret (.ok (.boolean true)), [], w⟩ := rfl
  have heval (value : Except RuntimeError Value) :
      EvaluatesTo natives (.literal id (.boolean true)) w value w' ↔
        value.map Flow.returning = .ok (.returning (.boolean true)) ∧ w' = w := by
    rw [evaluatesTo_iff, ends_step hstep, ends_ofValue_ret]
    rfl
  refine propext ⟨?_, ?_⟩
  · rintro ⟨value, hvalue, rfl⟩
    obtain ⟨hv, rfl⟩ := (heval value).mp hvalue
    cases value <;> cases hv
    exact .intro w'
  · rintro ⟨⟩
    exact ⟨.ok (.boolean true), (heval _).mpr ⟨rfl, rfl⟩, rfl⟩

end Nya.Machine
