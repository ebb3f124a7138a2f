import Nya.Proofs.Relabel.Machine
import Nya.Proofs.Relabel.Parse
import Nya.Proofs.Session.Scopes

/-!
# Rejected runs

A text that is rejected before it is run leaves the world as it was. It only uses up numbers for
nodes and functions, and these are not seen: a session that skips rejected texts gives out other
numbers, and is otherwise the same session.

The two sessions are compared up to a relabelling. Which number of the one session goes with which
number of the other depends on the texts alone, so the relabelling is fixed before the runs.

A depth stands in the reference that it belongs to. It could as well be noted in a table under the
number of the reference, when resolution comes by, even if the text is then rejected: no number is
given out twice, so no note is ever overwritten, and the table holds the depth of every reference
that is evaluated.

* `Session.Observation` for what is seen of a run, `Session.Thinned` for leaving rejected ones out
* `Session.rejected_runs_leave_no_trace`
* `Session.distances_of_evaluated` for depths in a table
-/

namespace Nya

variable {full kept : List (String × Option Observation)}

/-! ## Function numbers -/

mutual

theorem Stmt.functionNumbers_resolve : ∀ (scopes : Scopes) (s : Stmt),
    (s.resolve scopes).functionNumbers = s.functionNumbers
  | scopes, .block body => Stmt.functionNumbersAll_resolveAll _ body
  | scopes, .branch _ t none => Stmt.functionNumbers_resolve scopes t
  | scopes, .branch _ t (some e) => by
    rw [Stmt.resolve, Stmt.functionNumbers, Stmt.functionNumbers,
      Stmt.functionNumbers_resolve scopes t, Stmt.functionNumbers_resolve _ e]
  | scopes, .loop _ body => Stmt.functionNumbers_resolve scopes body
  | scopes, .function _ _ _ body => by
    rw [Stmt.resolve, Stmt.functionNumbers, Stmt.functionNumbers,
      Stmt.functionNumbersAll_resolveAll _ body]
  | _, .expression _ | _, .print _ | _, .var _ _ | _, .ret _ _ => rfl

theorem Stmt.functionNumbersAll_resolveAll : ∀ (scopes : Scopes) (ss : List Stmt),
    Stmt.functionNumbersAll (Stmt.resolveAll scopes ss) = Stmt.functionNumbersAll ss
  | _, [] => rfl
  | scopes, s :: ss => by
    rw [Stmt.resolveAll, Stmt.functionNumbersAll, Stmt.functionNumbersAll,
      Stmt.functionNumbers_resolve scopes s, Stmt.functionNumbersAll_resolveAll _ ss]

end

/-- How many functions a text declares. -/
def declared (source : String) : Nat := (Reading.ofSource source 0 0).parsed.functions

theorem lt_declared {source : String} {program : List Stmt}
    (h : (Reading.ofSource source 0 0).check = .ok program) :
    ∀ i ∈ Stmt.functionNumbersAll program, i < declared source := by
  obtain ⟨-, -, rfl⟩ := Reading.check_ok h
  intro i hi
  rw [resolve, Stmt.functionNumbersAll_resolveAll] at hi
  exact ((Reading.program_formed source 0 0).given.functions.range i hi).2

namespace Session

/-! ## What is seen -/

/-- What is seen of a run: its end, its reports, and the console and the globals after it. -/
structure Observation where
  status : Status
  diagnostics : List Diagnostic
  console : Console
  globals : String → Option String

/-- What is seen of a run that has led to the session. -/
def observe (s : Session) (status : Status) (diagnostics : List Diagnostic) : Observation :=
  ⟨status, diagnostics, s.world.console, fun name => (s.global? name).map Value.text⟩

/-- Source texts that are run one after another, with what is seen of each. A run without a result
is the last one. -/
def runs (s : Session) (fuel : Nat) : List String → List (String × Option Observation)
  | [] => []
  | source :: rest =>
    match s.run fuel source with
    | some (status, diagnostics, s') =>
      (source, some (s'.observe status diagnostics)) :: s'.runs fuel rest
    | none => [(source, none)]

/-- The second list is the first one without some of the rejected runs. -/
inductive Thinned : List (String × Option Observation) → List (String × Option Observation) → Prop
  | nil : Thinned [] []
  | keep {run : String × Option Observation} {full kept : List (String × Option Observation)} :
    Thinned full kept → Thinned (run :: full) (run :: kept)
  | drop {source : String} {o : Observation} {full kept : List (String × Option Observation)} :
    o.status = .staticError → Thinned full kept → Thinned ((source, some o) :: full) kept

/-! ## Two numberings -/

/--
The numbers of functions in the thinned session go with those in the full one: `next` is the next
number in the full session, `next'` that in the thinned one.
-/
inductive Aligned (g : Nat → Nat) : Nat → Nat → List (String × Option Observation) →
    List (String × Option Observation) → Prop
  | nil {next next' : Nat} : Aligned g next next' [] []
  | keep {next next' : Nat} {source : String} {o : Option Observation}
    {full kept : List (String × Option Observation)} :
    (∀ i < declared source, g (next' + i) = next + i) →
    Aligned g (next + declared source) (next' + declared source) full kept →
    Aligned g next next' ((source, o) :: full) ((source, o) :: kept)
  | drop {next next' : Nat} {source : String} {o : Observation}
    {full kept : List (String × Option Observation)} : o.status = .staticError →
    Aligned g (next + declared source) next' full kept →
    Aligned g next next' ((source, some o) :: full) kept

theorem Aligned.congr {g g' : Nat → Nat} {next next' : Nat} (h : Aligned g next next' full kept)
    (hg : ∀ i, next' ≤ i → g' i = g i) : Aligned g' next next' full kept := by
  induction h with
  | nil => exact .nil
  | keep hmap _ ih =>
    refine .keep ?_ (ih (fun i hi => hg i (by omega)))
    intro i hi
    rw [hg _ (Nat.le_add_right _ i)]
    exact hmap i hi
  | drop ho _ ih => exact .drop ho (ih hg)

/-- There is such a numbering, and it keeps numbers apart. -/
theorem Thinned.exists_aligned (h : Thinned full kept) : ∀ next next' : Nat, ∃ g : Nat → Nat,
      (∀ i j, next' ≤ i → i < j → g i < g j) ∧ (∀ i, next' ≤ i → next ≤ g i) ∧
        Aligned g next next' full kept := by
  induction h with
  | nil =>
    intro next next'
    refine ⟨fun i => next + (i - next'), ?_, ?_, .nil⟩
    · intro i j hi hij
      dsimp only
      omega
    · intro i hi
      dsimp only
      omega
  | @keep run full kept _ ih =>
    intro next next'
    obtain ⟨source, o⟩ := run
    obtain ⟨g, hmono, hle, haligned⟩ := ih (next + declared source) (next' + declared source)
    -- The numbers of this text come first; behind them the numbering is the one for the rest.
    refine ⟨fun i => if i < next' + declared source then next + (i - next') else g i, ?_, ?_, ?_⟩
    · intro i j hi hij
      have hj := hle j
      have hg := hmono i j
      dsimp only
      split <;> split <;> omega
    · intro i hi
      have hg := hle i
      dsimp only
      split <;> omega
    · refine .keep ?_ (haligned.congr ?_)
      · intro i hi
        rw [if_pos (by omega)]
        omega
      · intro i hi
        rw [if_neg (by omega)]
  | @drop source o full kept ho _ ih =>
    intro next next'
    obtain ⟨g, hmono, hle, haligned⟩ := ih (next + declared source) next'
    exact ⟨g, hmono, fun i hi => Nat.le_trans (Nat.le_add_right _ _) (hle i hi),
      .drop ho haligned⟩

/-! ## Two sessions -/

/-- What is left of a relabelling if nodes are not told apart and lines stay. -/
def erase (g : Nat → Nat) : Relabel := ⟨fun _ => 0, g, id⟩

/-- The two sessions are the same but for the numbers. -/
structure Same (g : Nat → Nat) (s t : Session) : Prop where
  natives : s.natives = t.natives
  indifferent : ∀ n ∈ s.natives, n.Indifferent
  world : s.world.relabel (erase id) = t.world.relabel (erase g)

theorem Same.observe {g : Nat → Nat} {s t : Session} (h : Same g s t) (status : Status)
    (diagnostics : List Diagnostic) :
    s.observe status diagnostics = t.observe status diagnostics := by
  obtain ⟨hconsole, hglobals⟩ := Machine.World.seen_of_relabel h.world
  rw [Session.observe, Session.observe, hconsole]
  exact congrArg (Observation.mk status diagnostics t.world.console) (funext hglobals)

/-- A program that was read by both sessions is the same but for the numbers. -/
theorem relabelAll_erase {g : Nat → Nat} {source : String} {program : List Stmt}
    (hcheck : (Reading.ofSource source 0 0).check = .ok program) {nodes functions nodes'
    functions' : Nat} (hg : ∀ i < declared source, g (functions' + i) = functions + i) :
    Stmt.relabelAll (erase id) (Stmt.relabelAll (.shift nodes functions) program) =
      Stmt.relabelAll (erase g) (Stmt.relabelAll (.shift nodes' functions') program) := by
  have hagree : ((erase id).comp (.shift nodes functions)).Agree
      ((erase g).comp (.shift nodes' functions')) := ⟨rfl, rfl⟩
  rw [Stmt.relabelAll_relabelAll, Stmt.relabelAll_relabelAll]
  refine Stmt.relabelAll_congr hagree ?_
  intro i hi
  exact (hg i (lt_declared hcheck i hi)).symm

theorem read_eq (s : Session) (source : String) :
    s.read source =
      ((Reading.ofSource source 0 0).check.map (Stmt.relabelAll (.shift s.nodes s.functions)),
        { s with
          nodes := s.nodes + (Reading.ofSource source 0 0).parsed.nodes
          functions := s.functions + declared source }) := by
  rw [read, Reading.check_ofSource, Reading.parsed_ofSource]
  rfl

/-- A rejected run leaves the world as it was. -/
theorem world_of_staticError {s s' : Session} {fuel : Nat} {source : String}
    {ds : List Diagnostic} (h : s.run fuel source = some (.staticError, ds, s')) :
    s'.world = s.world ∧ s'.natives = s.natives ∧
      s'.functions = s.functions + declared source := by
  rw [run_eq, read_eq] at h
  cases hcheck : (Reading.ofSource source 0 0).check with
  | error ds' =>
    rw [hcheck] at h
    cases h
    exact ⟨rfl, rfl, rfl⟩
  | ok program =>
    rw [hcheck] at h
    simp only [Except.map, interpret_eq] at h
    split at h <;> cases h

/-- Ends of runs that are the same but for the numbers. -/
theorem ends_of_erase {g : Nat → Nat}
    {o o' : Option (Except RuntimeError Unit × Machine.World)}
    (h : o.map (Machine.relabelEnd (erase id) id) = o'.map (Machine.relabelEnd (erase g) id)) :
    (o = none ∧ o' = none) ∨
      ∃ result w w', o = some (result, w) ∧ o' = some (result, w') ∧
        w.relabel (erase id) = w'.relabel (erase g) := by
  cases o with
  | none =>
    cases o' with
    | none => exact Or.inl ⟨rfl, rfl⟩
    | some e' => cases h
  | some e =>
    cases o' with
    | none => cases h
    | some e' =>
      obtain ⟨result, w⟩ := e
      obtain ⟨result', w'⟩ := e'
      have hend := Option.some.inj h
      cases result with
      | ok _ =>
        cases result' with
        | ok _ => exact Or.inr ⟨_, w, w', rfl, rfl, congrArg Prod.snd hend⟩
        | error e' => cases congrArg Prod.fst hend
      | error e =>
        cases result' with
        | ok _ => cases congrArg Prod.fst hend
        | error e' =>
          have he : e = e' := Except.error.inj (congrArg Prod.fst hend)
          subst he
          exact Or.inr ⟨_, w, w', rfl, rfl, congrArg Prod.snd hend⟩

/-- Both sessions run a text with the same result. -/
theorem Same.run {g : Nat → Nat} (hg : ∀ i j, g i = g j → i = j) {s t : Session}
    (h : Same g s t) (fuel : Nat) {source : String}
    (hmap : ∀ i < declared source, g (t.functions + i) = s.functions + i) :
    (s.run fuel source = none ∧ t.run fuel source = none) ∨
      ∃ status ds s' t', s.run fuel source = some (status, ds, s') ∧
        t.run fuel source = some (status, ds, t') ∧ Same g s' t' ∧
        s'.functions = s.functions + declared source ∧
        t'.functions = t.functions + declared source := by
  rw [Session.run_eq, Session.run_eq, read_eq, read_eq]
  cases hcheck : (Reading.ofSource source 0 0).check with
  | error ds =>
    exact Or.inr ⟨.staticError, ds, _, _, rfl, rfl, ⟨h.natives, h.indifferent, h.world⟩, rfl, rfl⟩
  | ok program =>
    -- With the numbers erased both sessions run one program in one world.
    have hid : (erase id).Faithful := fun _ _ hij => hij
    have hfaithful : (erase g).Faithful := hg
    have hnatives : ∀ n ∈ t.natives, n.Indifferent := h.natives ▸ h.indifferent
    have hs := Machine.interpret_relabel hid h.indifferent fuel
      (Stmt.relabelAll (.shift s.nodes s.functions) program) s.world
    have ht := Machine.interpret_relabel hfaithful hnatives fuel
      (Stmt.relabelAll (.shift t.nodes t.functions) program) t.world
    rw [relabelAll_erase hcheck hmap, h.world, h.natives, ht] at hs
    simp only [Except.map, Session.interpret_eq, h.natives]
    rcases ends_of_erase hs.symm with ⟨hsnone, htnone⟩ | ⟨result, w, w', hsome, htsome, hw⟩
    · rw [hsnone, htnone]
      exact Or.inl ⟨rfl, rfl⟩
    · rw [hsome, htsome]
      cases result with
      | ok _ => exact Or.inr ⟨.ok, [], _, _, rfl, rfl, ⟨rfl, hnatives, hw⟩, rfl, rfl⟩
      | error e =>
        exact Or.inr ⟨.runtimeError, [.runtime e], _, _, rfl, rfl, ⟨rfl, hnatives, hw⟩, rfl, rfl⟩

/-! ## Leaving runs out -/

/-- The first of some runs, and the runs after it. -/
theorem runs_eq_cons {s : Session} {fuel : Nat} {sources : List String} {source : String}
    {o : Option Observation} {rest : List (String × Option Observation)}
    (h : s.runs fuel sources = (source, o) :: rest) :
    (s.run fuel source = none ∧ o = none ∧ rest = []) ∨
      ∃ status ds s' others, s.run fuel source = some (status, ds, s') ∧
        o = some (s'.observe status ds) ∧ s'.runs fuel others = rest := by
  cases sources with
  | nil => cases h
  | cons source' others =>
    rw [runs] at h
    cases hrun : s.run fuel source' with
    | none =>
      rw [hrun] at h
      cases h
      exact Or.inl ⟨hrun, rfl, rfl⟩
    | some outcome =>
      obtain ⟨status, ds, s'⟩ := outcome
      rw [hrun] at h
      cases h
      exact Or.inr ⟨status, ds, s', others, hrun, rfl, rfl⟩

/-- Sessions that are the same but for the numbers have the same runs, rejected ones aside. -/
theorem Aligned.runs {g : Nat → Nat} (hg : ∀ i j, g i = g j → i = j) (fuel : Nat) {next next' : Nat}
    (h : Aligned g next next' full kept) : ∀ {s t : Session} {sources : List String},
      s.functions = next → t.functions = next' → Same g s t → s.runs fuel sources = full →
      t.runs fuel (kept.map Prod.fst) = kept := by
  induction h with
  | nil => intros; rfl
  | @keep _ _ source o full kept hmap htail ih =>
    intro s t sources hs ht hsame hruns
    subst hs ht
    rw [List.map_cons, Session.runs]
    rcases runs_eq_cons hruns with ⟨hsrun, rfl, rfl⟩ | ⟨status, ds, s', others, hsrun, rfl, hrest⟩
    · rcases hsame.run hg fuel hmap with ⟨-, htrun⟩ | ⟨_, _, _, _, hsrun', -⟩
      · cases htail
        rw [htrun]
      · rw [hsrun] at hsrun'
        cases hsrun'
    · rcases hsame.run hg fuel hmap with
        ⟨hsrun', -⟩ | ⟨status', ds', s₁, t₁, hsrun', htrun, hsame₁, hs₁, ht₁⟩
      · rw [hsrun] at hsrun'
        cases hsrun'
      · rw [hsrun] at hsrun'
        cases hsrun'
        rw [htrun]
        simp only [hsame₁.observe, ih hs₁ ht₁ hsame₁ hrest]
  | @drop _ _ source o full kept ho htail ih =>
    intro s t sources hs ht hsame hruns
    subst hs ht
    rcases runs_eq_cons hruns with ⟨-, ho', -⟩ | ⟨status, ds, s', others, hsrun, ho', hrest⟩
    · cases ho'
    · cases ho'
      cases ho
      obtain ⟨hworld, hnatives, hfunctions⟩ := world_of_staticError hsrun
      refine ih hfunctions rfl ⟨?_, ?_, ?_⟩ hrest
      · rw [hnatives, hsame.natives]
      · rw [hnatives]
        exact hsame.indifferent
      · rw [hworld, hsame.world]

/-- A new session has given out no numbers for functions, and has no functions to relabel. -/
theorem new_same (g : Nat → Nat) {natives : List Native} (hn : ∀ n ∈ natives, n.Indifferent)
    (console : Console) :
    (new natives console).functions = 0 ∧ Same g (new natives console) (new natives console) := by
  have hfunctions : (new natives console).functions = 0 :=
    new_induction (motive := fun s => s.functions = 0) console rfl (fun _ _ _ h => h)
  have hindifferent : ∀ n ∈ (new natives console).natives, n.Indifferent :=
    forall_natives_new hn console
  have hworld : ∀ ρ : Relabel, (new natives console).world.relabel ρ =
      (new natives console).world := by
    intro ρ
    refine new_induction (motive := fun s => s.world.relabel ρ = s.world) console ?_ ?_
    · simp [Machine.World.relabel, Store.relabel, Store.push, Frame.relabel]
    intro s n hmem h
    have hstore : s.world.store.relabel ρ = s.world.store := congrArg Machine.World.store h
    have hdefine := s.world.store.define_relabel ρ Machine.globals n.name
      (.native ⟨s.natives.size, n.name, n.arity⟩)
    rw [hstore] at hdefine
    exact congrArg (fun store => ({ s.world with store } : Machine.World)) hdefine.symm
  exact ⟨hfunctions, rfl, hindifferent, by rw [hworld, hworld]⟩

/-- Whether a run was not rejected. -/
def accepted (run : String × Option Observation) : Bool :=
  decide (run.2.map Observation.status ≠ some .staticError)

/-- All rejected runs may be left out. -/
theorem thinned_filter (full : List (String × Option Observation)) :
    Thinned full (full.filter accepted) := by
  induction full with
  | nil => exact .nil
  | cons run full ih =>
    rw [List.filter_cons]
    by_cases h : accepted run = true
    · rw [if_pos h]
      exact .keep ih
    · rw [if_neg h]
      obtain ⟨source, o⟩ := run
      cases o with
      | none => simp [accepted] at h
      | some o => exact .drop (by simpa [accepted] using h) ih

/--
**Rejected runs leave no trace.** A rejected run leaves the world as it was, console included; and
whichever rejected runs are left out of a session, the other runs are seen to do the same.
-/
theorem rejected_runs_leave_no_trace {natives : List Native} (hn : ∀ n ∈ natives, n.Indifferent)
    (console : Console) (fuel : Nat) (sources : List String) :
    (∀ (s : Session) (source : String) (ds : List Diagnostic) (s' : Session),
      s.run fuel source = some (.staticError, ds, s') → s'.world = s.world) ∧
    ∀ kept, Thinned ((new natives console).runs fuel sources) kept →
      (new natives console).runs fuel (kept.map Prod.fst) = kept := by
  refine ⟨fun s source ds s' h => (world_of_staticError h).1, ?_⟩
  intro kept hthinned
  obtain ⟨g, hmono, -, haligned⟩ := hthinned.exists_aligned 0 0
  have hg : ∀ i j, g i = g j → i = j := by
    intro i j hij
    rcases Nat.lt_trichotomy i j with h | h | h
    · have := hmono i j (Nat.zero_le i) h
      omega
    · exact h
    · have := hmono j i (Nat.zero_le j) h
      omega
  obtain ⟨hfunctions, hsame⟩ := new_same g hn console
  exact haligned.runs hg fuel hfunctions hfunctions hsame rfl

/-- Five texts; the second is no program, and the third declares a name twice. -/
def mixedTexts : List String :=
  [":D f() :> c: f; <: >.< a o/ f();", ":D g( :> <:", ":> :D h() :> <: >.< b; >.< b; <:",
    ":D k() :> <: pwint a \\o/ f; pwint k \\o/ f;", "pwint missing;"]

/-- Two rejected texts, one of which uses up the number of a function, are left out. -/
theorem rejected_runs_leave_no_trace_between :
    (new Native.standard {}).runs 100
        [":D f() :> c: f; <: >.< a o/ f();", ":D k() :> <: pwint a \\o/ f; pwint k \\o/ f;",
          "pwint missing;"] =
      ((new Native.standard {}).runs 100 mixedTexts).filter accepted := by
  have hkept : (((new Native.standard {}).runs 100 mixedTexts).filter accepted).map Prod.fst =
      [":D f() :> c: f; <: >.< a o/ f();", ":D k() :> <: pwint a \\o/ f; pwint k \\o/ f;",
        "pwint missing;"] := by
    decide +kernel
  rw [← hkept]
  exact (rejected_runs_leave_no_trace Native.standard_indifferent {} 100 mixedTexts).2 _
    (thinned_filter _)

end Session

/-! ## Depths in a table -/

/-- Notes the depth of a visited reference under its number. One without a depth is not noted. -/
def Visit.note (distances : Nat → Option Nat) (v : Visit) : Nat → Option Nat :=
  match v.reference.depth with
  | none => distances
  | some d => Function.update distances v.reference.id (some d)

theorem Visit.note_of_ne {v : Visit} {id : Nat} (h : id ≠ v.reference.id)
    (distances : Nat → Option Nat) : v.note distances id = distances id := by
  unfold note
  cases v.reference.depth with
  | none => rfl
  | some d => exact Function.update_of_ne h _ _

theorem Visit.note_self {v : Visit} {distances : Nat → Option Nat}
    (h : distances v.reference.id = none) :
    v.note distances v.reference.id = v.reference.depth := by
  unfold note
  cases v.reference.depth with
  | none => exact h
  | some d => exact Function.update_self _ _ _

theorem foldl_note_of_notMem {id : Nat} {vs : List Visit} (h : id ∉ vs.map (·.reference.id))
    (distances : Nat → Option Nat) : vs.foldl Visit.note distances id = distances id := by
  induction vs generalizing distances with
  | nil => rfl
  | cons v vs ih =>
    rw [List.map_cons, List.mem_cons, not_or] at h
    rw [List.foldl_cons, ih h.2, Visit.note_of_ne h.1]

/-- Where every number is visited once, the note of a visit stays. -/
theorem foldl_note_of_mem {vs : List Visit} (hvs : (vs.map (·.reference.id)).Nodup) {v : Visit}
    (hv : v ∈ vs) {distances : Nat → Option Nat} (h : distances v.reference.id = none) :
    vs.foldl Visit.note distances v.reference.id = v.reference.depth := by
  induction vs generalizing distances with
  | nil => cases hv
  | cons first vs ih =>
    rw [List.map_cons, List.nodup_cons] at hvs
    rw [List.foldl_cons]
    rcases List.mem_cons.mp hv with rfl | hv
    · rw [foldl_note_of_notMem hvs.1, Visit.note_self h]
    · have hne : v.reference.id ≠ first.reference.id := by
        intro heq
        exact hvs.1 (heq ▸ List.mem_map_of_mem hv)
      exact ih hvs.2 hv ((Visit.note_of_ne hne distances).trans h)

namespace Session

/-- The depths that resolution notes in a session, in rejected runs as well, by number. -/
def distances (s : Session) (fuel : Nat) (sources : List String) : Nat → Option Nat :=
  (s.visits fuel sources).foldl Visit.note fun _ => none

/--
**The table has the depth of every reference that is evaluated.** Whatever else a session has read,
before or afterwards, and whether it was rejected or run, under the number of the reference there is
its depth, and there is nothing if it has none.
-/
theorem distances_of_evaluated {natives : List Native} (hn : ∀ n ∈ natives, n.Honest)
    (console : Console) (fuel : Nat) (sources : List String) {i : Nat} {c : Machine.Config}
    (hc : ((new natives console).trace fuel sources)[i]? = some c) {access : Access}
    {r : Reference} (hr : c.focus.reference? = some (access, r)) :
    (new natives console).distances fuel sources r.id = r.depth := by
  obtain ⟨after, hchain⟩ := new_trace_chain hn console fuel sources hc
  obtain ⟨levels, -, hv⟩ := hchain.sound_of_append.focused.visit hr
  obtain ⟨last, hfresh⟩ := visits_fresh fuel sources (new natives console)
  exact foldl_note_of_mem hfresh.nodup (mem_soundVisits.mp hv).1 rfl

end Session

end Nya
