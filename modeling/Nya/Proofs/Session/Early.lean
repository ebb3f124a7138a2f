import Nya.Proofs.Machine.Early
import Nya.Proofs.Session.Scopes

/-!
# Functions made at each read

A declaration leaves only itself in its frame, and each read makes the function anew. Nobody can
tell: operations on scopes answer as if the function had been made when it was declared, and a
session goes through the same configurations, with the same values in them, to the same ends.

A session that keeps functions as values takes the steps of `Machine.stepEarly`.

* `Session.outcomes` for the ends of texts that are run one after another
* `Session.late_functions_agree`
-/

namespace Nya.Session

open Machine (Config Birth births EndedEarly)

/-! ## Outcomes -/

/-- How source texts end that are run one after another. One without a result is the last. -/
def outcomes (run : Session → String → Option (Status × List Diagnostic × Session))
    (s : Session) : List String → List (Option (Status × List Diagnostic × Session))
  | [] => []
  | source :: rest =>
    run s source :: match run s source with
      | some (_, _, s') => s'.outcomes run rest
      | none => []

/-! ## Agreement -/

/-- The second session is the first one with functions kept as values. -/
inductive Early (before : List Birth) : Session → Session → Prop
  | mk {w w' : Machine.World} (natives : Array Native) (nodes functions : Nat)
    (h : w.Early before w') :
    Early before ⟨natives, w, nodes, functions⟩ ⟨natives, w', nodes, functions⟩

/-- Both have ended in the same way, with the same reports. -/
structure EarlyOutcome (before : List Birth) (r r' : Status × List Diagnostic × Session) :
    Prop where
  status : r'.1 = r.1
  diagnostics : r'.2.1 = r.2.1
  session : r.2.2.Early before r'.2.2

/-- What can be asked of the sessions has the same answers. -/
structure SameState (s s' : Session) : Prop where
  nodes : s'.nodes = s.nodes
  functions : s'.functions = s.functions
  env : s'.world.env = s.world.env
  calls : s'.world.calls = s.world.calls
  console : s'.world.console = s.world.console
  globals : s'.global? = s.global?

theorem Early.same {before : List Birth} {s s' : Session} (h : s.Early before s') :
    s.SameState s' := by
  cases h with
  | mk natives nodes functions h =>
    have hglobal := h.global?_eq
    cases h with
    | mk env calls console h => exact ⟨rfl, rfl, rfl, rfl, rfl, hglobal⟩

variable {vs : List Visit} {before : List Birth} {s s' : Session}

/-- **One text runs the same way in both sessions.** -/
theorem Early.run (h : s.Early before s') (hgrounded : s.Grounded vs before)
    (hvs : ∀ v ∈ vs, v.Sound) (fuel : Nat) {source : String}
    (hsub : ∀ v ∈ s.visitsOf source, v.Sound → v ∈ vs) :
    List.Forall₂ Config.Same (s.traceOf fuel source) (s'.traceOfBy Machine.stepEarly fuel source) ∧
      Option.Rel (EarlyOutcome (before ++ births (s.traceOf fuel source))) (s.run fuel source)
        (s'.runBy Machine.stepEarly fuel source) := by
  cases h with
  | @mk w w' natives nodes functions h =>
    obtain ⟨hgrounded₁, hscoped⟩ := hgrounded.read rfl hsub
    rw [traceOf_eq, traceOfBy, run_eq, runBy, runWith]
    simp only [Session.read] at hgrounded₁ hscoped ⊢
    generalize Reading.ofSource source nodes functions = reading at hgrounded₁ hscoped ⊢
    cases hcheck : reading.check with
    | error ds =>
      refine ⟨.nil, .some ⟨rfl, rfl, ?_⟩⟩
      rw [births, List.filterMap_nil, List.append_nil]
      exact .mk natives _ _ h
    | ok program =>
      obtain ⟨htrace, hended⟩ := Machine.traceAll_early hvs hgrounded₁.natives fuel
        hgrounded₁.ground hgrounded₁.env (hscoped program hcheck) h
      refine ⟨htrace, ?_⟩
      dsimp only
      rw [interpret_eq, interpretWith]
      generalize Machine.interpret natives fuel program w = ended at hended ⊢
      generalize Machine.interpretWith (Machine.runBy (Machine.stepEarly natives) fuel) program w' =
        ended' at hended ⊢
      cases hended with
      | none => exact .none
      | @some r r' hr =>
        obtain ⟨result, world⟩ := r
        obtain ⟨result', world'⟩ := r'
        obtain ⟨rfl, hworld⟩ := hr
        cases result' with
        | ok _ => exact .some ⟨rfl, rfl, .mk natives _ _ hworld⟩
        | error e => exact .some ⟨rfl, rfl, .mk natives _ _ hworld⟩

/-- Both have the same status and reports, in sessions that cannot be told apart. -/
def SameOutcome (r r' : Status × List Diagnostic × Session) : Prop :=
  r'.1 = r.1 ∧ r'.2.1 = r.2.1 ∧ r.2.2.SameState r'.2.2

theorem EarlyOutcome.same {r r' : Status × List Diagnostic × Session}
    (h : EarlyOutcome before r r') : SameOutcome r r' :=
  ⟨h.status, h.diagnostics, h.session.same⟩

/-- **Texts run one after another go the same way in both sessions.** -/
theorem Early.runs (hvs : ∀ v ∈ vs, v.Sound) (fuel : Nat) : ∀ {sources : List String}
    {s s' : Session} {before : List Birth}, s.Early before s' → s.Grounded vs before →
    (∀ v ∈ s.visits fuel sources, v.Sound → v ∈ vs) →
    List.Forall₂ Config.Same (s.trace fuel sources) (s'.traceBy Machine.stepEarly fuel sources) ∧
      List.Forall₂ (Option.Rel SameOutcome) (s.outcomes (fun s => s.run fuel) sources)
        (s'.outcomes (fun s => s.runBy Machine.stepEarly fuel) sources)
  | [], _, _, _, _, _, _ => ⟨.nil, .nil⟩
  | source :: rest, s, s', before, h, hgrounded, hsub => by
    rw [Session.visits] at hsub
    have hsub₁ : ∀ v ∈ s.visitsOf source, v.Sound → v ∈ vs :=
      fun v hv => hsub v (List.mem_append_left _ hv)
    obtain ⟨htrace, hrun⟩ := h.run hgrounded hvs fuel hsub₁
    obtain ⟨-, hnext⟩ := hgrounded.run hvs fuel hsub₁
    rw [trace_cons, traceBy, outcomes, outcomes]
    cases hs : s.run fuel source with
    | none =>
      rw [hs] at hrun
      generalize s'.runBy Machine.stepEarly fuel source = r' at hrun ⊢
      cases hrun
      exact ⟨List.rel_append htrace .nil, .cons .none .nil⟩
    | some outcome =>
      rw [hs] at hrun hsub
      generalize s'.runBy Machine.stepEarly fuel source = r' at hrun ⊢
      cases hrun with
      | @some _ outcome' houtcome =>
        obtain ⟨status, ds, s₁⟩ := outcome
        obtain ⟨status', ds', s₁'⟩ := outcome'
        obtain ⟨htraces, houtcomes⟩ := Early.runs hvs fuel houtcome.session (hnext hs)
          fun v hv => hsub v (List.mem_append_right _ hv)
        exact ⟨List.rel_append htrace htraces, .cons (.some houtcome.same) houtcomes⟩

/-- A new session has declared nothing yet. -/
theorem new_early (natives : List Native) (console : Console) :
    (new natives console).Early [] (new natives console) := by
  refine new_induction (motive := fun s => s.Early [] s) console ?_ ?_
  · exact .mk _ _ _ (.mk _ _ _ (Store.Early.refl_empty _).push)
  · intro s n _ h
    cases h with
    | mk natives nodes functions h =>
      cases h with
      | mk env calls console h => exact .mk _ _ _ (.mk _ _ _ (h.define _ _ _))

/--
**Functions made at each read are the functions made when they were declared.** Operations on scopes
answer the same both ways; two reads are the same function if they come from the same declaration
in the same scope, from however far they are made, and read at the distance of the scope or not.
A session goes through the same configurations, with the same values, and comes to the same ends.
-/
theorem late_functions_agree {natives : List Native} (hn : ∀ n ∈ natives, n.Honest)
    (console : Console) (fuel : Nat) (sources : List String) :
    (∀ ops, (Forest.run Store.declareEarly ops {}).1 = (Forest.run Store.declare ops {}).1 ∧
      (Forest.run Store.declareEarly ops {}).2.scopes = (Forest.built ops).scopes ∧
      (Forest.run Store.declareEarly ops {}).2.reads = (Forest.built ops).reads) ∧
    (∀ ops, ∀ env ∈ (Forest.built ops).scopes, ∀ env' ∈ (Forest.built ops).scopes,
      ∀ name name' holder holder' d d', (Forest.built ops).store.Holds name env holder →
      (Forest.built ops).store.Holds name' env' holder' →
      ((Forest.built ops).store.frame holder.frame).get? name = some (.function d) →
      ((Forest.built ops).store.frame holder'.frame).get? name' = some (.function d') →
      ∃ u v, (Forest.built ops).store.lookup? env name = some u ∧
        (∀ distance, env.ancestor distance = holder →
          (Forest.built ops).store.readAt? env distance name = some u) ∧
        (Forest.built ops).store.lookup? env' name' = some v ∧
        (u.equals v = true ↔ d.id = d'.id ∧ holder = holder')) ∧
    List.Forall₂ Config.Same ((new natives console).trace fuel sources)
      ((new natives console).traceBy Machine.stepEarly fuel sources) ∧
    List.Forall₂ (Option.Rel SameOutcome)
      ((new natives console).outcomes (fun s => s.run fuel) sources)
      ((new natives console).outcomes (fun s => s.runBy Machine.stepEarly fuel) sources) := by
  refine ⟨?_, ?_, ?_⟩
  · intro ops
    obtain ⟨hreplies, hearly⟩ := Forest.Early.run ops Forest.early_empty Forest.grown_empty
    exact ⟨hreplies, hearly.scopes, hearly.reads⟩
  · intro ops env henv env' henv' name name' holder holder' d d' hholds hholds' hd hd'
    obtain ⟨u, v, hu, hv, hequals⟩ :=
      (Forest.grown_built ops).equals_iff henv henv' hholds hholds' hd hd'
    refine ⟨u, v, hu, ?_, hv, hequals⟩
    intro distance hdistance
    rw [(hholds.at_distance hdistance).1, hu]
  · exact (new_early natives console).runs (fun _ hv => (mem_soundVisits.mp hv).2) fuel
      (new_grounded hn console) fun _ hv hs => mem_soundVisits.mpr ⟨hv, hs⟩

/-- What was printed by the end of each text. -/
def printed (outcomes : List (Option (Status × List Diagnostic × Session))) :
    List (Option (List String)) :=
  outcomes.map (Option.map fun r => r.2.2.world.console.lines)

theorem printed_eq {rs rs' : List (Option (Status × List Diagnostic × Session))}
    (h : List.Forall₂ (Option.Rel SameOutcome) rs rs') : printed rs' = printed rs := by
  induction h with
  | nil => rfl
  | cons hr _ ih =>
    refine congrArg₂ List.cons ?_ ih
    cases hr with
    | none => rfl
    | some hr => exact congrArg (some ∘ Console.lines) hr.2.2.console

/-- A function that yields itself, made in two activations of another one and compared. -/
def nestedFunctions : List String :=
  [":D mk() :> :D g() :> c: g; <: c: g; <: >.< a o/ mk();", "pwint a() \\o/ a; pwint a \\o/ mk();"]

/-- The function is read in its own body and from outside: it is the same in one activation only. -/
theorem late_functions_agree_nested :
    printed ((new Native.standard {}).outcomes (fun s => s.runBy Machine.stepEarly 100)
      nestedFunctions) = [some [], some ["twue", "fawse"]] := by
  obtain ⟨-, -, -, houtcomes⟩ :=
    late_functions_agree Native.standard_honest {} 100 nestedFunctions
  rw [printed_eq houtcomes]
  decide +kernel

end Nya.Session
