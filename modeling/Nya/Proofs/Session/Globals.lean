import Nya.Proofs.Machine.Globals
import Nya.Proofs.Session.Scopes

/-!
# The globals of a session

A session executes statements that stand outside of all scopes, one after another and one text
after another. At each moment the globals are the natives, and what those among the statements that
have been executed so far declare themselves: nothing that is declared inside of a block, a loop, a
branch or a function ever becomes a global. The value of a global changes when such a statement
declares it again, and otherwise only through an assignment that resolution gave no depth.

* `Session.moments` for the moments of a session, which are those of its trace
* `Session.globals_declared_outermost`
-/

namespace Nya

namespace Machine

variable {done : List Stmt}

/-! ## Moments -/

/-- A moment: the statements executed before, the one that is being run, and where that one is. -/
structure Moment where
  done : List Stmt
  current : Stmt
  config : Config

/-- The statements that have been executed, the current one among them if it has ended. -/
def Moment.executed (m : Moment) : List Stmt :=
  if m.config.ended then m.done ++ [m.current] else m.done

/-- The moments of statements that are run one after another, up to the first fault. -/
def momentsAll (natives : Array Native) (fuel : Nat) (done : List Stmt) :
    List Stmt → World → List Moment
  | [], _ => []
  | s :: ss, w =>
    (trace natives fuel ⟨.exec s, [], w⟩).map (Moment.mk done s) ++
      match execute natives fuel s w with
      | some (.ok _, w') => momentsAll natives fuel (done ++ [s]) ss w'
      | _ => []

/-- Those of the statements that are executed before a fault. -/
def completedAll (natives : Array Native) (fuel : Nat) : List Stmt → World → List Stmt
  | [], _ => []
  | s :: ss, w =>
    match execute natives fuel s w with
    | some (.ok _, w') => s :: completedAll natives fuel ss w'
    | _ => []

theorem map_config_momentsAll (natives : Array Native) (fuel : Nat) : ∀ (done ss : List Stmt)
    (w : World), (momentsAll natives fuel done ss w).map Moment.config =
      traceAll natives fuel ss w := by
  intro done ss
  induction ss generalizing done with
  | nil => intro w; rfl
  | cons s ss ih =>
    intro w
    have hcurrent : ((trace natives fuel ⟨.exec s, [], w⟩).map (Moment.mk done s)).map
        Moment.config = trace natives fuel ⟨.exec s, [], w⟩ := by
      rw [List.map_map]
      exact List.map_id _
    rw [momentsAll, traceAll_cons, List.map_append, hcurrent]
    cases execute natives fuel s w with
    | none => rfl
    | some outcome =>
      obtain ⟨result, w'⟩ := outcome
      cases result with
      | error e => rfl
      | ok flow => rw [ih]

/-! ## Names -/

/-- One of the statements declares the name. -/
def Declared (names : String → Prop) (done : List Stmt) (name : String) : Prop :=
  names name ∨ ∃ s ∈ done, s.declared? = some name

theorem declared_append_singleton {names : String → Prop} {s : Stmt} {name : String} :
    Declared names (done ++ [s]) name ↔
      Declared names done name ∨ s.declared? = some name := by
  simp only [Declared, List.mem_append, List.mem_singleton, or_and_right, exists_or,
    exists_eq_left, or_assoc]

/-- Between two statements the frame of the globals is current, and has the names declared. -/
structure World.Named (names : String → Prop) (w : World) : Prop where
  env : w.env.frame = globals.frame
  next : globals.frame < w.store.next
  binds : ∀ name, w.store.binds globals.frame name = true ↔ names name

/-- In a moment the names of the globals are those that were declared. -/
structure Moment.Named (names : String → Prop) (m : Moment) : Prop where
  belongs : m.config.Belongs m.current.declared?
  binds : ∀ name, m.config.world.store.binds globals.frame name = true ↔
    Declared names m.executed name

variable {natives : Array Native} {names : String → Prop}

/-- The run of one statement, from its start on. -/
theorem World.Named.trace {w : World} (h : w.Named (Declared names done)) {s : Stmt}
    (hs : s.Regular) (fuel : Nat) :
    ∀ c ∈ Machine.trace natives fuel ⟨.exec s, [], w⟩,
      c.Belongs s.declared? ∧ c.Named s.declared? (Declared names done) := by
  refine trace_named ⟨h.next, fun _ => ⟨rfl, hs⟩, h.env⟩ ?_
  intro name
  rw [h.binds name]
  simp [Config.ended]

theorem World.Named.moment {w : World} (h : w.Named (Declared names done)) {s : Stmt}
    (hs : s.Regular) {fuel : Nat} :
    ∀ c ∈ Machine.trace natives fuel ⟨.exec s, [], w⟩, (Moment.mk done s c).Named names := by
  intro c hc
  obtain ⟨hbelongs, hnamed⟩ := h.trace hs fuel c hc
  refine ⟨hbelongs, ?_⟩
  intro name
  rw [hnamed name, Moment.executed]
  cases hended : c.ended with
  | true => simp [declared_append_singleton]
  | false => simp

/-- What the run of one statement leaves behind. -/
theorem World.Named.execute {w w' : World} (h : w.Named (Declared names done)) {s : Stmt}
    (hs : s.Regular) {fuel : Nat} {result : Except RuntimeError Flow}
    (hrun : Machine.execute natives fuel s w = some (result, w')) :
    w'.Named (Declared names (if result.isOk then done ++ [s] else done)) := by
  obtain ⟨c, hc, hhalt⟩ := exists_halt_of_run hrun
  obtain ⟨hbelongs, hnamed⟩ := h.trace hs fuel c hc
  obtain ⟨rfl, hstack, hended⟩ := Config.of_halt hhalt
  refine ⟨?_, hbelongs.next, ?_⟩
  · have henv := hbelongs.stack
    rw [hstack] at henv
    exact henv
  · intro name
    rw [hnamed name, hended]
    cases result.isOk with
    | true => simp [declared_append_singleton]
    | false => simp

/-- Statements that are run one after another, and what they leave behind. -/
theorem World.Named.all (fuel : Nat) : ∀ {ss done : List Stmt} {w : World},
    w.Named (Declared names done) → (∀ s ∈ ss, s.Regular) →
    (∀ m ∈ momentsAll natives fuel done ss w, m.Named names) ∧
      ∀ {result : Except RuntimeError Unit} {w' : World},
        interpret natives fuel ss w = some (result, w') →
        w'.Named (Declared names (done ++ completedAll natives fuel ss w)) := by
  intro ss
  induction ss with
  | nil =>
    intro done w h _
    refine ⟨fun m hm => (List.not_mem_nil hm).elim, ?_⟩
    intro result w' hi
    cases hi
    rw [completedAll, List.append_nil]
    exact h
  | cons s ss ih =>
    intro done w h hs
    have hcurrent : ∀ m ∈ (Machine.trace natives fuel ⟨.exec s, [], w⟩).map (Moment.mk done s),
        m.Named names := by
      intro m hm
      obtain ⟨c, hc, rfl⟩ := List.mem_map.mp hm
      exact h.moment (hs s List.mem_cons_self) c hc
    rw [momentsAll, completedAll, interpret_cons]
    cases hx : Machine.execute natives fuel s w with
    | none =>
      refine ⟨fun m hm => hcurrent m (by simpa using hm), ?_⟩
      intro result w' hi
      cases hi
    | some outcome =>
      obtain ⟨result₁, w₁⟩ := outcome
      have h₁ := h.execute (hs s List.mem_cons_self) hx
      cases result₁ with
      | error e =>
        have h₁ : w₁.Named (Declared names done) := h₁
        refine ⟨fun m hm => hcurrent m (by simpa using hm), ?_⟩
        intro result w' hi
        cases hi
        rw [List.append_nil]
        exact h₁
      | ok flow =>
        have h₁ : w₁.Named (Declared names (done ++ [s])) := h₁
        obtain ⟨hrest, hfinal⟩ := ih h₁ (fun s' hm => hs s' (List.mem_cons_of_mem _ hm))
        refine ⟨?_, ?_⟩
        · intro m hm
          rcases List.mem_append.mp hm with hm | hm
          · exact hcurrent m hm
          · exact hrest m hm
        · intro result w' hi
          have hend := hfinal hi
          rw [List.append_assoc] at hend
          exact hend

/-! ## Values -/

theorem Ground.Fits.frame_ne {g : Ground} {env : Env} {levels : Levels} (h : g.Fits env levels)
    (hlevels : levels ≠ []) : env.frame ≠ Machine.globals.frame := by
  cases h with
  | globals => exact absurd rfl hlevels
  | frame hb hn ho => exact Nat.succ_ne_zero _

/-- A variable with a depth is not a global. -/
theorem World.holder?_frame_ne {vs : List Visit} {births : List Birth} {w : World}
    {levels : Levels} (hf : (w.ground vs births).Fits w.env levels) {access : Access}
    {r : Reference} (hv : (⟨access, r, levels⟩ : Visit).Sound) {d : Nat} (hd : r.depth = some d)
    {holder : Env} (h : w.holder? r = some holder) : holder.frame ≠ globals.frame := by
  have hlt : d < levels.length := hv.depth_lt hd
  have hdrop : levels.drop d ≠ [] := by
    rw [Ne, List.drop_eq_nil_iff]
    exact Nat.not_le.mpr hlt
  simp only [World.holder?, hd, Store.holderAt?] at h
  split at h
  · cases h
    exact (hf.ancestor hlt).frame_ne hdrop
  · cases h

theorem World.holder?_eq_globals {w : World} {r : Reference} (hd : r.depth = none) {holder : Env}
    (h : w.holder? r = some holder) : holder = globals := by
  simp only [World.holder?, hd, globals, Store.holder?] at h
  split at h
  · cases h
    rfl
  · cases h

/-- The next step assigns the value to the variable of a reference that has no depth. -/
def Config.AssignsGlobal (c : Config) (r : Reference) (v : Value) : Prop :=
  r.depth = none ∧ ∃ holes purpose, c.focus = .give v ⟨.assign r :: holes, purpose⟩

/-- **A global changes by the declaration of the current statement, or an assignment without a
depth.** -/
theorem Config.Sound.global?_ne {vs : List Visit} (hvs : ∀ v ∈ vs, v.Sound) {births : List Birth}
    {c c' : Config} (hsound : c.Sound vs births) {declared : Option String}
    (halters : c.Alters declared c') {name : String}
    (hne : c'.world.global? name ≠ c.world.global? name) :
    c'.ended = true ∧ declared = some name ∨
      ∃ r v, c.AssignsGlobal r v ∧ r.name.lexeme = name ∧ c'.world.global? name = some v := by
  have hnext : globals.frame < c.world.store.next := Ground.Fits.frame_lt hsound.ground .globals
  rw [World.global?_eq, World.global?_eq, Store.read?, Store.read?] at hne
  cases halters with
  | keeps hframe hended => exact absurd (by rw [hframe]) hne
  | @declares name' b hdeclared hended hstore =>
    by_cases hname : name = name'
    · exact .inl ⟨hended, hname ▸ hdeclared⟩
    · refine absurd ?_ hne
      rw [hstore, Store.get?_frame_bind hnext, if_neg (fun h => hname h.2)]
  | @assigns v r holes purpose holder hfocus hholder hended hworld =>
    have hreference : c.focus.reference? = some (.write, r) := by rw [hfocus]; rfl
    obtain ⟨levels, hf, hv⟩ := hsound.focused.visit hreference
    cases hd : r.depth with
    | some d =>
      -- A depth leads to a frame of a scope, which is not the frame of the globals.
      have hframe := World.holder?_frame_ne hf (hvs _ hv) hd hholder
      refine absurd ?_ hne
      rw [hworld, World.overwrite, Store.define, Store.frame_bind_of_ne hframe.symm]
    | none =>
      have hglobals := World.holder?_eq_globals hd hholder
      subst hglobals
      have hget := Store.get?_frame_bind hnext r.name.lexeme (.value v) globals.frame name
      by_cases hname : r.name.lexeme = name
      · refine .inr ⟨r, v, ⟨hd, holes, purpose, hfocus⟩, hname, ?_⟩
        rw [World.global?_eq, Store.read?, hworld, World.overwrite, Store.define, hget,
          if_pos ⟨rfl, hname.symm⟩]
        rfl
      · refine absurd ?_ hne
        rw [hworld, World.overwrite, Store.define, hget, if_neg (fun h => hname h.2.symm)]

end Machine

namespace Session

open Machine (Moment Declared World)

/-! ## Sessions -/

/-- The moments of one run of a session. -/
def momentsOf (s : Session) (fuel : Nat) (done : List Stmt) (source : String) : List Moment :=
  match s.read source with
  | (.error _, _) => []
  | (.ok program, s) => Machine.momentsAll s.natives fuel done program s.world

/-- The statements that one run of a session executes before a fault. -/
def completedOf (s : Session) (fuel : Nat) (source : String) : List Stmt :=
  match s.read source with
  | (.error _, _) => []
  | (.ok program, s) => Machine.completedAll s.natives fuel program s.world

/-- The moments of a session that runs source texts one after another. -/
def moments (s : Session) (fuel : Nat) (done : List Stmt) : List String → List Moment
  | [] => []
  | source :: rest =>
    s.momentsOf fuel done source ++
      match s.run fuel source with
      | some (_, _, s') => s'.moments fuel (done ++ s.completedOf fuel source) rest
      | none => []

theorem map_config_momentsOf (s : Session) (fuel : Nat) (done : List Stmt) (source : String) :
    (s.momentsOf fuel done source).map Moment.config = s.traceOf fuel source := by
  unfold momentsOf
  rw [traceOf_eq]
  cases s.read source with
  | mk result s₁ =>
    cases result with
    | error ds => rfl
    | ok program => exact Machine.map_config_momentsAll s₁.natives fuel done program s₁.world

theorem map_config_moments (fuel : Nat) : ∀ (sources : List String) (s : Session)
    (done : List Stmt), (s.moments fuel done sources).map Moment.config = s.trace fuel sources := by
  intro sources
  induction sources with
  | nil => intro s done; rfl
  | cons source rest ih =>
    intro s done
    rw [moments, trace_cons, List.map_append, map_config_momentsOf]
    cases s.run fuel source with
    | none => rfl
    | some outcome =>
      obtain ⟨status, ds, s'⟩ := outcome
      rw [ih]

variable {names : String → Prop}

/-- A program that was read is regular, and reading changes nothing of the world. -/
theorem read_regular {s s₁ : Session} {source : String} {program : List Stmt}
    (h : s.read source = (.ok program, s₁)) :
    s₁.world = s.world ∧ s₁.natives = s.natives ∧ ∀ stmt ∈ program, stmt.Regular := by
  rw [Session.read, Prod.mk.injEq] at h
  obtain ⟨hcheck, rfl⟩ := h
  obtain ⟨-, -, rfl⟩ := Reading.check_ok hcheck
  refine ⟨rfl, rfl, ?_⟩
  have hregular := (Reading.program_formed source s.nodes s.functions).regular
  exact Stmt.regularAll_iff.mp (Stmt.RegularAll.resolveAll [] (Stmt.regularAll_iff.mpr hregular))

/-- The moments of one run, and what it leaves behind. -/
theorem run_named {s : Session} (h : s.world.Named (Declared names done)) (fuel : Nat)
    (source : String) :
    (∀ m ∈ s.momentsOf fuel done source, m.Named names) ∧
      ∀ {status : Status} {ds : List Diagnostic} {s' : Session},
        s.run fuel source = some (status, ds, s') →
        s'.world.Named (Declared names (done ++ s.completedOf fuel source)) := by
  unfold momentsOf completedOf
  rw [Session.run_eq]
  cases hread : s.read source with
  | mk result s₁ =>
    cases result with
    | error ds =>
      refine ⟨fun m hm => (List.not_mem_nil hm).elim, ?_⟩
      intro status ds s' hrun
      cases hrun
      rw [Session.read, Prod.mk.injEq] at hread
      rw [← hread.2, List.append_nil]
      exact h
    | ok program =>
      obtain ⟨hworld, -, hregular⟩ := read_regular hread
      rw [← hworld] at h
      obtain ⟨hmoments, hfinal⟩ := h.all fuel hregular
      refine ⟨hmoments, ?_⟩
      intro status ds s' hrun
      obtain ⟨result, world, hi, rfl, -⟩ := interpret_cases hrun
      exact hfinal hi

/-- In every moment of a session the names of the globals are those that were declared. -/
theorem moments_named (fuel : Nat) : ∀ {sources : List String} {s : Session} {done : List Stmt},
    s.world.Named (Declared names done) →
    ∀ m ∈ s.moments fuel done sources, m.Named names := by
  intro sources
  induction sources with
  | nil => intro s done _ m hm; cases hm
  | cons source rest ih =>
    intro s done h m hm
    obtain ⟨hmoments, hnext⟩ := run_named h fuel source
    rw [moments] at hm
    rcases List.mem_append.mp hm with hm | hm
    · exact hmoments m hm
    · cases hrun : s.run fuel source with
      | none =>
        rw [hrun] at hm
        cases hm
      | some outcome =>
        obtain ⟨status, ds, s'⟩ := outcome
        rw [hrun] at hm
        exact ih (hnext hrun) m hm

/-- Defining a native adds its name. -/
theorem define_named {s : Session} (h : s.world.Named names) (n : Native) :
    (s.define n).world.Named (fun name => names name ∨ n.name = name) := by
  refine ⟨h.env, Nat.lt_of_lt_of_eq h.next (Store.next_bind _ _ _ _).symm, ?_⟩
  intro name
  rw [← h.binds name]
  simp only [define, Store.define, Store.binds, Store.get?_frame_bind h.next, true_and]
  by_cases hname : name = n.name
  · simp [hname]
  · simp [hname, Ne.symm hname]

theorem foldl_define_named (natives : List Native) {s : Session} (h : s.world.Named names) :
    (natives.foldl define s).world.Named
      (fun name => names name ∨ ∃ n ∈ natives, n.name = name) := by
  induction natives generalizing s names with
  | nil => exact ⟨h.env, h.next, fun name => by simp [h.binds name]⟩
  | cons n natives ih =>
    have hrest := ih (define_named h n)
    refine ⟨hrest.env, hrest.next, ?_⟩
    intro name
    rw [List.foldl_cons, hrest.binds name]
    simp [or_assoc]

/-- A new session has its natives as globals. -/
theorem new_named (natives : List Native) (console : Console) :
    (new natives console).world.Named
      (Declared (fun name => ∃ n ∈ natives, n.name = name) []) := by
  have hempty : (World.mk (Store.push {}) Machine.globals 0 console).Named (fun _ => False) := by
    refine ⟨rfl, Nat.lt_of_lt_of_eq (Nat.succ_pos _) (Store.next_push _).symm, ?_⟩
    intro name
    rw [Store.binds, Store.frame_push]
    simp [Store.frame, Frame.get?]
  have hnew := foldl_define_named natives
    (s := ⟨#[], ⟨Store.push {}, Machine.globals, 0, console⟩, 0, 0⟩) hempty
  refine ⟨hnew.env, hnew.next, ?_⟩
  intro name
  rw [new, hnew.binds name]
  simp [Declared]

/-! ## The globals of a session -/

/--
**Locals never become globals.** At each moment of a session the globals are its natives and what
the outermost statements that have been executed declare. A step changes the names of the globals
only when it ends an outermost declaration. It changes the value of a global only then, or by an
assignment that resolution left without a depth, as long as the natives make up no functions.
-/
theorem globals_declared_outermost (natives : List Native) (console : Console) (fuel : Nat)
    (sources : List String) :
    ((new natives console).moments fuel [] sources).map Moment.config =
        (new natives console).trace fuel sources ∧
      ∀ m ∈ (new natives console).moments fuel [] sources,
        (∀ name, (m.config.world.global? name).isSome = true ↔
          (∃ n ∈ natives, n.name = name) ∨ ∃ s ∈ m.executed, s.declared? = some name) ∧
        ∀ c, Machine.step (new natives console).natives m.config = .config c → ∀ name,
          ((c.world.global? name).isSome ≠ (m.config.world.global? name).isSome →
            c.ended = true ∧ m.current.declared? = some name) ∧
          ((∀ n ∈ natives, n.Honest) → c.world.global? name ≠ m.config.world.global? name →
            c.ended = true ∧ m.current.declared? = some name ∨
              ∃ r v, m.config.AssignsGlobal r v ∧ r.name.lexeme = name ∧
                c.world.global? name = some v ∧
                ∃ levels, ⟨.write, r, levels⟩ ∈ (new natives console).visits fuel sources) := by
  refine ⟨map_config_moments fuel sources _ [], ?_⟩
  intro m hm
  obtain ⟨hbelongs, hbinds⟩ := moments_named fuel (new_named natives console) m hm
  refine ⟨?_, ?_⟩
  · intro name
    rw [Machine.World.isSome_global?]
    exact hbinds name
  intro c hstep name
  have halters := hbelongs.alters hstep
  refine ⟨?_, ?_⟩
  · intro hne
    rw [Machine.World.isSome_global?, Machine.World.isSome_global?] at hne
    have hiff := halters.binds hbelongs.next name
    by_cases hended : c.ended = true ∧ m.current.declared? = some name
    · exact hended
    · rw [or_iff_left hended] at hiff
      exact absurd (Bool.eq_iff_iff.mpr hiff) hne
  · intro hn hne
    have hmem : m.config ∈ (new natives console).trace fuel sources := by
      rw [← map_config_moments fuel sources _ []]
      exact List.mem_map_of_mem hm
    obtain ⟨i, hi⟩ := List.mem_iff_getElem?.mp hmem
    obtain ⟨after, hchain⟩ := new_trace_chain hn console fuel sources hi
    have hsound := hchain.sound_of_append
    rcases hsound.global?_ne (fun v hv => (mem_soundVisits.mp hv).2) halters hne with
      hended | ⟨r, v, hassigns, hname, hvalue⟩
    · exact .inl hended
    · obtain ⟨holes, purpose, hfocus⟩ := hassigns.2
      have hreference : m.config.focus.reference? = some (.write, r) := by rw [hfocus]; rfl
      obtain ⟨levels, -, hv⟩ := hsound.focused.visit hreference
      exact .inr ⟨r, v, hassigns, hname, hvalue, levels, (mem_soundVisits.mp hv).1⟩

/-- Two runs: the first declares a global and a function, the second calls the function. -/
def localBeside : List String :=
  [">.< g o/ fawse; :D f() :> >.< x o/ twue; g o/ x; <:", "f();"]

theorem localBeside_moment :
    (((new Native.standard {}).moments 100 [] localBeside)[19]?).bind (fun m =>
      ((Machine.trace (new Native.standard {}).natives 2 m.config)[1]?).map fun c =>
        (m.config.world.store.binds m.config.world.env.frame "x",
          m.executed.filterMap Stmt.declared?, (m.config.world.global? "g").map Value.isTruthy,
          (c.world.global? "g").map Value.isTruthy, c.ended)) =
      some (true, ["g", "f"], some false, some true, false) := by
  decide +kernel

theorem standard_ne_local : ∀ n ∈ Native.standard, n.name ≠ "x" := by
  decide +kernel

/-- The call has a local that is no global, and assigns to a global. -/
theorem globals_declared_outermost_local :
    ∃ m c, m ∈ (new Native.standard {}).moments 100 [] localBeside ∧
      Machine.step (new Native.standard {}).natives m.config = .config c ∧
      m.config.world.store.binds m.config.world.env.frame "x" = true ∧
      m.config.world.global? "x" = none ∧
      ∃ r v, m.config.AssignsGlobal r v ∧ r.name.lexeme = "g" ∧ c.world.global? "g" = some v := by
  obtain ⟨m, hm, hmoment⟩ := Option.bind_eq_some_iff.mp localBeside_moment
  obtain ⟨c, hc, hdata⟩ := Option.map_eq_some_iff.mp hmoment
  simp only [Prod.mk.injEq] at hdata
  obtain ⟨hlocal, hexecuted, hbefore, hafter, hended⟩ := hdata
  have hstep : Machine.step (new Native.standard {}).natives m.config = .config c := by
    rw [Machine.trace_succ, List.getElem?_cons_succ] at hc
    cases hstep : Machine.step (new Native.standard {}).natives m.config with
    | halt result w =>
      rw [hstep] at hc
      cases hc
    | config c' =>
      rw [hstep] at hc
      cases hc
      rfl
  have hmem := List.mem_of_getElem? hm
  obtain ⟨hnames, hsteps⟩ :=
    (globals_declared_outermost Native.standard {} 100 localBeside).2 m hmem
  refine ⟨m, c, hmem, hstep, hlocal, ?_, ?_⟩
  · rw [← Option.not_isSome_iff_eq_none, hnames]
    rintro (⟨n, hn, hname⟩ | ⟨s, hs, hname⟩)
    · exact standard_ne_local n hn hname
    · have hdeclared : "x" ∈ m.executed.filterMap Stmt.declared? :=
        List.mem_filterMap.mpr ⟨s, hs, hname⟩
      rw [hexecuted] at hdeclared
      simp at hdeclared
  · have hne : c.world.global? "g" ≠ m.config.world.global? "g" := by
      intro h
      rw [h, hbefore] at hafter
      cases hafter
    rcases (hsteps c hstep "g").2 Native.standard_honest hne with
      ⟨hend, -⟩ | ⟨r, v, hassigns, hname, hvalue, -⟩
    · rw [hended] at hend
      cases hend
    · exact ⟨r, v, hassigns, hname, hvalue⟩

end Session

end Nya
