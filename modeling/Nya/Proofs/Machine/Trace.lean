import Nya.Proofs.Scope.Visits
import Nya.Session

/-!
# Traces

The configurations that a run passes through, in order, and those of a whole session. A step that
makes a frame does so for a scope that the program opens; `Config.birth?` says for which one.

A trace has as many configurations as the fuel allows, so that runs without an end have traces of
any length.
-/

namespace Nya

namespace Machine

/-! ## Openings -/

/-- The opening of a scope: what is opened, and the environment around the new frame. -/
structure Birth where
  opener : Opener
  outer : Env

/-- What a call opens: nothing unless it is one of a declared function that will be entered. -/
def callBirth? (callee : Value) (args : List Value) (w : World) : Option Birth :=
  match callee with
  | .closure d env =>
    if args.length = d.params.length ∧ w.calls < maxCalls then some ⟨.function d, env⟩ else none
  | _ => none

@[simp] theorem callBirth?_reverse (callee : Value) (args : List Value) (w : World) :
    callBirth? callee args.reverse w = callBirth? callee args w := by
  cases callee with
  | closure d env => rw [callBirth?, callBirth?, List.length_reverse]
  | _ => rfl

/-- What the next step opens. -/
def Config.birth? : Config → Option Birth
  | ⟨.exec (.block body), _, w⟩ => some ⟨.block body, w.env⟩
  | ⟨.give v ⟨.callee [] _ :: _, _⟩, _, w⟩ => callBirth? v [] w
  | ⟨.give v ⟨.argument callee done [] _ :: _, _⟩, _, w⟩ => callBirth? callee (v :: done) w
  | _ => none

/-- The openings of a trace, in order. -/
def births (trace : List Config) : List Birth := trace.filterMap Config.birth?

/-- The next step makes the frame for a scope of this opener, and goes on with the body there. -/
def Config.Opens (natives : Array Native) (c : Config) (frame : FrameId) (opener : Opener) :
    Prop :=
  ∃ outer c', c.birth? = some ⟨opener, outer⟩ ∧ step natives c = .config c' ∧
    c.world.store.next = frame ∧ c'.world.store.next = frame + 1 ∧
    c'.world.env = .child frame outer ∧ c'.focus = .execAll opener.body

@[simp] theorem World.bindParams_env : ∀ (params : List Token) (args : List Value) (w : World),
    (w.bindParams params args).env = w.env
  | [], _, _ | _ :: _, [], _ => rfl
  | _ :: params, _ :: args, w => by rw [bindParams, bindParams_env params args]; rfl

@[simp] theorem World.bindParams_next : ∀ (params : List Token) (args : List Value) (w : World),
    (w.bindParams params args).store.next = w.store.next
  | [], _, _ | _ :: _, [], _ => rfl
  | _ :: params, _ :: args, w => by
    rw [bindParams, bindParams_next params args]
    exact Store.next_bind _ _ _ _

/-- A call of a declared function that is entered makes a frame for it. -/
theorem call_opens {natives : Array Native} {callee : Value} {args : List Value} {w : World}
    {b : Birth} (h : callBirth? callee args w = some b) (paren : Token) (context : Context)
    (stack : List Task) :
    (call natives callee args paren context stack w).world.store.next = w.store.next + 1 ∧
      (call natives callee args paren context stack w).world.env = .child w.store.next b.outer ∧
      (call natives callee args paren context stack w).focus = .execAll b.opener.body := by
  cases callee with
  | closure d env =>
    simp only [callBirth?] at h
    split at h
    · next hcall =>
      cases h
      have hlimit : ¬ maxCalls ≤ w.calls := Nat.not_le.mpr hcall.2
      simp [call, arity?, hcall.1, hlimit, enterCall, World.enter, Opener.body]
    · cases h
  | _ => cases h

/-- What `birth?` announces, the next step does. -/
theorem Config.opens_of_birth? {natives : Array Native} {c : Config} {opener : Opener} {outer : Env}
    (h : c.birth? = some ⟨opener, outer⟩) : c.Opens natives c.world.store.next opener := by
  unfold birth? at h
  split at h
  · next body stack w =>
    cases h
    exact ⟨_, _, rfl, rfl, rfl, Store.next_push _, rfl, rfl⟩
  · next v paren holes purpose stack w =>
    obtain ⟨hnext, henv, hfocus⟩ := call_opens h paren ⟨holes, purpose⟩ stack
    exact ⟨outer, _, h, rfl, rfl, hnext, henv, hfocus⟩
  · next v callee done paren holes purpose stack w =>
    have hrev : callBirth? callee (v :: done).reverse w = some ⟨opener, outer⟩ := by
      rw [callBirth?_reverse]
      exact h
    obtain ⟨hnext, henv, hfocus⟩ := call_opens hrev paren ⟨holes, purpose⟩ stack
    exact ⟨outer, _, h, rfl, rfl, hnext, henv, hfocus⟩
  · cases h

/-! ## References -/

/-- The reference being evaluated: read, or written either before or after its value is there. -/
def Focus.reference? : Focus → Option (Access × Reference)
  | .eval (.read r) _ => some (.read, r)
  | .eval (.assign r _) _ => some (.write, r)
  | .give _ ⟨.assign r :: _, _⟩ => some (.write, r)
  | _ => none

theorem Focus.eq_of_reference?_read {focus : Focus} {r : Reference}
    (h : focus.reference? = some (.read, r)) : ∃ context, focus = .eval (.read r) context := by
  unfold reference? at h
  split at h
  · next r' context =>
    cases h
    exact ⟨context, rfl⟩
  · cases h
  · cases h
  · cases h

/-! ## Traces of runs -/

/-- The configurations that a run passes through, at most as many as the fuel says. -/
def traceBy (step : Config → Next) : Nat → Config → List Config
  | 0, _ => []
  | fuel + 1, c =>
    c :: match step c with
      | .config c' => traceBy step fuel c'
      | .halt _ _ => []

/-- The configurations of statements that are run one after another, up to the first fault. -/
def traceAllBy (step : Config → Next) (fuel : Nat) : List Stmt → World → List Config
  | [], _ => []
  | s :: ss, w =>
    traceBy step fuel ⟨.exec s, [], w⟩ ++
      match runBy step fuel ⟨.exec s, [], w⟩ with
      | some (.ok _, w') => traceAllBy step fuel ss w'
      | _ => []

/-- The configurations that a run passes through, at most as many as the fuel says. -/
def trace (natives : Array Native) : Nat → Config → List Config := traceBy (step natives)

theorem trace_succ (natives : Array Native) (fuel : Nat) (c : Config) :
    trace natives (fuel + 1) c =
      c :: match step natives c with
        | .config c' => trace natives fuel c'
        | .halt _ _ => [] := rfl

/-- The configurations of statements that are run one after another, up to the first fault. -/
def traceAll (natives : Array Native) (fuel : Nat) : List Stmt → World → List Config :=
  traceAllBy (step natives) fuel

theorem traceAll_nil (natives : Array Native) (fuel : Nat) (w : World) :
    traceAll natives fuel [] w = [] := rfl

theorem traceAll_cons (natives : Array Native) (fuel : Nat) (s : Stmt) (ss : List Stmt)
    (w : World) :
    traceAll natives fuel (s :: ss) w =
      trace natives fuel ⟨.exec s, [], w⟩ ++
        match execute natives fuel s w with
        | some (.ok _, w') => traceAll natives fuel ss w'
        | _ => [] := rfl

end Machine

namespace Session

/-! ## Traces of sessions -/

/-- The configurations of one run of a session, by the given steps. -/
def traceOfBy (step : Array Native → Machine.Config → Machine.Next) (s : Session) (fuel : Nat)
    (source : String) : List Machine.Config :=
  match s.read source with
  | (.error _, _) => []
  | (.ok program, s) => Machine.traceAllBy (step s.natives) fuel program s.world

/-- The configurations of a session that runs source texts one after another, by the given
steps. -/
def traceBy (step : Array Native → Machine.Config → Machine.Next) (s : Session) (fuel : Nat) :
    List String → List Machine.Config
  | [] => []
  | source :: rest =>
    s.traceOfBy step fuel source ++
      match s.runBy step fuel source with
      | some (_, _, s') => s'.traceBy step fuel rest
      | none => []

/-- The configurations of one run of a session. -/
def traceOf (s : Session) (fuel : Nat) (source : String) : List Machine.Config :=
  s.traceOfBy Machine.step fuel source

theorem traceOf_eq (s : Session) (fuel : Nat) (source : String) :
    s.traceOf fuel source =
      match s.read source with
      | (.error _, _) => []
      | (.ok program, s) => Machine.traceAll s.natives fuel program s.world := rfl

/-- The configurations of a session that runs source texts one after another. -/
def trace (s : Session) (fuel : Nat) (sources : List String) : List Machine.Config :=
  s.traceBy Machine.step fuel sources

theorem trace_cons (s : Session) (fuel : Nat) (source : String) (rest : List String) :
    s.trace fuel (source :: rest) =
      s.traceOf fuel source ++
        match s.run fuel source with
        | some (_, _, s') => s'.trace fuel rest
        | none => [] := rfl

/-- The visits of resolution in one run. A text with faults before that is not resolved. -/
def visitsOf (s : Session) (source : String) : List Visit :=
  let reading := Reading.ofSource source s.nodes s.functions
  if reading.diagnostics.isEmpty then visits reading.program else []

/-- The visits of resolution in a session that runs source texts one after another. -/
def visits (s : Session) (fuel : Nat) : List String → List Visit
  | [] => []
  | source :: rest =>
    s.visitsOf source ++
      match s.run fuel source with
      | some (_, _, s') => s'.visits fuel rest
      | none => []

end Session

end Nya
