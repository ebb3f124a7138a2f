import Nya.Proofs.Machine.Balance
import Nya.Proofs.Machine.History

/-!
# Runs start in order

However a run ends, it leaves the current environment and the count of calls as it found them. So
every run of a session starts among the globals with no call in progress, whatever was run before.

* `Session.Reachable` for the sessions that a new one may come to
* `Session.unwinding_balanced`
-/

namespace Nya

namespace Machine

variable {natives : Array Native}

theorem World.env_calls_of_place {w w' : World} (h : w'.place = w.place) :
    w'.env = w.env ∧ w'.calls = w.calls :=
  ⟨congrArg Prod.fst h, congrArg Prod.snd h⟩

theorem execute_place {fuel : Nat} {s : Stmt} {w w' : World} {result : Except RuntimeError Flow}
    (h : execute natives fuel s w = some (result, w')) : w'.place = w.place :=
  run_place fuel h

theorem evaluate_place {fuel : Nat} {e : Expr} {w w' : World}
    {result : Except RuntimeError Value} (h : evaluate natives fuel e w = some (result, w')) :
    w'.place = w.place := by
  obtain ⟨⟨flow, w₁⟩, hrun, hend⟩ := Option.map_eq_some_iff.mp h
  cases hend
  exact run_place fuel hrun

theorem interpret_place {fuel : Nat} : ∀ {ss : List Stmt} {w w' : World}
    {result : Except RuntimeError Unit}, interpret natives fuel ss w = some (result, w') →
    w'.place = w.place
  | [], w, w', result, h => by
    cases h
    rfl
  | s :: ss, w, w', result, h => by
    rw [interpret_cons] at h
    cases hs : execute natives fuel s w with
    | none =>
      rw [hs] at h
      cases h
    | some outcome =>
      obtain ⟨flow, w₁⟩ := outcome
      rw [hs] at h
      cases flow with
      | ok flow => exact (interpret_place h).trans (execute_place hs)
      | error e =>
        cases h
        exact execute_place hs

end Machine

namespace Session

/-- The sessions that a new one comes to by running texts, in whatever way each run ends. -/
inductive Reachable (natives : List Native) (console : Console) : Session → Prop
  | new : Reachable natives console (new natives console)
  | run {s s' : Session} {fuel : Nat} {source : String} {status : Status} {ds : List Diagnostic} :
    Reachable natives console s → s.run fuel source = some (status, ds, s') →
    Reachable natives console s'

theorem new_place (natives : List Native) (console : Console) :
    (new natives console).world.place = (Machine.globals, 0) :=
  new_induction (motive := fun s => s.world.place = (Machine.globals, 0)) console rfl
    (fun _ _ _ h => h)

theorem run_place {s s' : Session} {fuel : Nat} {source : String} {status : Status}
    {ds : List Diagnostic} (h : s.run fuel source = some (status, ds, s')) :
    s'.world.place = s.world.place := by
  obtain rfl | ⟨_, _, _, -, hi, rfl⟩ := run_cases h
  · rfl
  · exact Machine.interpret_place hi

theorem Reachable.place {natives : List Native} {console : Console} {s : Session}
    (h : Reachable natives console s) : s.world.place = (Machine.globals, 0) := by
  induction h with
  | new => exact new_place natives console
  | run _ hrun ih => rw [run_place hrun, ih]

/--
**Whatever is left is left in order.** A statement or an expression that ends leaves the current
environment and the count of calls as it found them, in whatever way it ends; so does each part of a
run, between two moments with the same tasks left to do. During a run the count is that of the start
and the calls in progress, and it stays within the limit. So a session starts each run among the
globals, with no call in progress.
-/
theorem unwinding_balanced (natives : Array Native) (fuel : Nat) :
    (∀ (s : Stmt) (w w' : Machine.World) (result : Except RuntimeError Machine.Flow),
      Machine.execute natives fuel s w = some (result, w') →
      w'.env = w.env ∧ w'.calls = w.calls) ∧
    (∀ (e : Expr) (w w' : Machine.World) (result : Except RuntimeError Value),
      Machine.evaluate natives fuel e w = some (result, w') →
      w'.env = w.env ∧ w'.calls = w.calls) ∧
    (∀ (start c c' : Machine.Config) (before between after : List Machine.Config),
      Machine.trace natives fuel start = before ++ c :: between ++ c' :: after →
      (∀ m ∈ between, c.stack <:+ m.stack) → c'.stack = c.stack →
      c'.world.env = c.world.env ∧ c'.world.calls = c.world.calls) ∧
    (∀ (focus : Machine.Focus) (w : Machine.World), ∀ c ∈ Machine.trace natives fuel ⟨focus, [], w⟩,
      c.world.calls = w.calls + Machine.callsOn c.stack ∧
      (w.calls ≤ Machine.maxCalls → c.world.calls ≤ Machine.maxCalls)) ∧
    ∀ (given : List Native) (console : Console) (s : Session), Reachable given console s →
      ∀ source, (s.read source).2.world.env = Machine.globals ∧
        (s.read source).2.world.calls = 0 := by
  refine ⟨?_, ?_, ?_, ?_, ?_⟩
  · intro s w w' result h
    exact Machine.World.env_calls_of_place (Machine.execute_place h)
  · intro e w w' result h
    exact Machine.World.env_calls_of_place (Machine.evaluate_place h)
  · intro start c c' before between after htrace hbetween hstack
    exact Machine.World.env_calls_of_place (Machine.place_of_stack_eq htrace hbetween hstack)
  · intro focus w c hc
    exact ⟨Machine.trace_calls hc, Machine.trace_calls_le hc⟩
  · intro given console s h source
    exact ⟨congrArg Prod.fst h.place, congrArg Prod.snd h.place⟩

/-- A function with a fault in a block of its body, called in a block. -/
def brokenCall : String := ":D f(a) :> :> pwint a(a); <: <: :> f(twue); <:"

/-- The fault is found in a call and in two blocks, and the next run starts among the globals. -/
theorem unwinding_balanced_after_fault :
    ∃ ds s', (new Native.standard {}).run 100 brokenCall = some (.runtimeError, ds, s') ∧
      ∀ source, (s'.read source).2.world.env = Machine.globals ∧
        (s'.read source).2.world.calls = 0 := by
  have hrun : ((new Native.standard {}).run 100 brokenCall).map Prod.fst = some .runtimeError := by
    decide +kernel
  obtain ⟨⟨status, ds, s'⟩, h, hstatus⟩ := Option.map_eq_some_iff.mp hrun
  obtain rfl : status = .runtimeError := hstatus
  obtain ⟨-, -, -, -, hstart⟩ := unwinding_balanced (new Native.standard {}).natives 100
  exact ⟨ds, s', h, hstart Native.standard {} s' (.run .new h)⟩

end Session

end Nya
