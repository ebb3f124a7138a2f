import Nya.Proofs.Machine.Activations
import Nya.Proofs.Machine.Initializers
import Nya.Proofs.Session.Globals

/-!
# Writes of locals

A write with a depth goes to the frame of the scope in which resolution found the name. It is a
fault if that frame does not bind the name. This happens in one case only, and always in that case:
if the write stands in the initializer of the very local that it writes, which is bound when the
initializer has its value and no sooner. Resolution rejects reads in that place, but no writes.

* `Session.resolved_write_outcome`: what each write with a depth leads to
* `Session.resolved_write_can_fail`: a program that is accepted, with a write that is a fault
-/

namespace Nya

/-- A pending name is found in the innermost scope. -/
theorem Visit.Sound.depth_of_isPending {v : Visit} (h : v.Sound) (hpending : v.isPending = true) :
    v.reference.depth = some 0 := by
  obtain ⟨access, r, levels⟩ := v
  cases levels with
  | nil => cases hpending
  | cons level outer =>
    have hready : level.scope.ready? r.name.lexeme = some false := by
      simpa [Visit.isPending, Levels.scopes, Scopes.isPending] using hpending
    have hhas : level.scope.has r.name.lexeme = true := by simp [Scope.has, hready]
    rw [h.depth]
    simp [Levels.scopes, Scopes.depth?, List.findIdx?_cons, hhas]

namespace Machine

variable {vs : List Visit} {births : List Birth} {natives : Array Native}

/-! ## One write -/

/-- A value is about to be assigned to the reference. -/
def Focus.target? : Focus → Option Reference
  | .give _ ⟨.assign r :: _, _⟩ => some r
  | _ => none

theorem Focus.eq_of_target? {focus : Focus} {r : Reference} (h : focus.target? = some r) :
    ∃ v holes purpose, focus = .give v ⟨.assign r :: holes, purpose⟩ := by
  cases focus with
  | give v context =>
    obtain ⟨holes, purpose⟩ := context
    cases holes with
    | nil => cases h
    | cons hole holes =>
      cases hole with
      | assign r' => cases h; exact ⟨v, holes, purpose, rfl⟩
      | _ => cases h
  | _ => cases h

section

variable {c : Config} {v : Value} {r : Reference} {holes : List Hole} {purpose : Purpose} {d : Nat}
  (hfocus : c.focus = .give v ⟨.assign r :: holes, purpose⟩) (hd : r.depth = some d)

include hfocus hd

/-- A write with a depth overwrites the name where the depth leads, if it is bound there. -/
theorem step_write_bound
    (hbinds : c.world.store.binds (c.world.env.ancestor d).frame r.name.lexeme = true) :
    step natives c = .config ⟨.give v ⟨holes, purpose⟩, c.stack,
      c.world.overwrite (c.world.env.ancestor d) r.name.lexeme v⟩ := by
  obtain ⟨focus, stack, w⟩ := c
  cases hfocus
  have hholder : w.holder? r = some (w.env.ancestor d) := by
    simp only [World.holder?, hd, Store.holderAt?]
    exact if_pos hbinds
  simp only [step, stepGive, fill, hholder]

/-- If the name is not bound there, the write is a fault. -/
theorem step_write_unbound
    (hbinds : c.world.store.binds (c.world.env.ancestor d).frame r.name.lexeme = false) :
    step natives c = .config ⟨.raise (.undefined r.name), c.stack, c.world⟩ := by
  obtain ⟨focus, stack, w⟩ := c
  cases hfocus
  have hholder : w.holder? r = none := by
    simp only [World.holder?, hd, Store.holderAt?]
    exact if_neg (Bool.not_eq_true _ ▸ hbinds)
  simp only [step, stepGive, fill, hholder]

end

/-- The current frame was opened for the innermost level. -/
theorem Ground.Fits.innermost {g : Ground} {env : Env} {levels : Levels} (h : g.Fits env levels)
    (hlevels : levels ≠ []) : ∃ i b, env.frame = i + 1 ∧ g.births[i]? = some b ∧
      b.opener ∈ levels.map Level.opener := by
  cases h with
  | globals => exact absurd rfl hlevels
  | frame hb hn ho => exact ⟨_, _, rfl, hb, List.mem_cons_self⟩

/-- A write whose name is not pending finds it bound. -/
theorem Ground.Fits.binds_of_depth {g : Ground} {env : Env} {v : Visit} (hf : g.Fits env v.levels)
    (hv : v.Sound) (htidy : v.levels.Tidy) (hpending : v.isPending = false) {d : Nat}
    (hd : v.reference.depth = some d) :
    g.store.binds (env.ancestor d).frame v.reference.name.lexeme = true := by
  rw [hv.depth] at hd
  obtain ⟨level, hlevel, hready⟩ := Levels.ready_of_depth? htidy.settled hpending hd
  exact hf.binds hlevel hready

/--
A name that the statement in focus declares in a scope is not bound yet in the frame of that scope,
which was opened for statements that declare it once.
-/
theorem Tracked.not_binds {store : Store} {name : String} {env : Env} {stack : List Task}
    (h : Tracked births store (some name) env stack) (hstack : stack ≠ []) {i : Nat} {b : Birth}
    (hframe : env.frame = i + 1) (hb : births[i]? = some b) (hnodup : b.opener.names.Nodup) :
    store.binds env.frame name = false := by
  cases stack with
  | nil => exact absurd rfl hstack
  | cons task stack =>
    cases task with
    | sequence rest =>
      obtain ⟨s, hs, j, b', before, hj, hb', hbody, hnames⟩ := h.1 name rfl
      have hij : i = j := Nat.succ.inj (hframe.symm.trans hj)
      subst hij
      cases hb.symm.trans hb'
      -- The name comes after all that may be bound, and a name comes once.
      rw [Opener.names, hbody, List.filterMap_append, List.filterMap_cons_some hs,
        ← List.append_assoc] at hnodup
      have hdisjoint := (List.nodup_append.mp hnodup).2.2
      cases hbinds : store.binds env.frame name with
      | false => rfl
      | true => exact absurd rfl (hdisjoint name (hnames name hbinds) name List.mem_cons_self)
    | again condition body => cases h.1
    | leave outer => cases h.1
    | back outer caller => cases h.1

/-- Where a value is awaited inside of scopes, there is something left to do afterwards. -/
theorem Config.Sound.stack_ne_nil {v : Value} {context : Context} {stack : List Task} {w : World}
    (h : Config.Sound vs births ⟨.give v context, stack, w⟩)
    (hframe : w.env.frame ≠ globals.frame) : stack ≠ [] := by
  rintro rfl
  obtain ⟨-, levels, -, -, after, -, hstacks⟩ := h.focused
  cases hstacks with
  | nil henv => exact hframe (congrArg Env.frame henv)

theorem Purpose.eq_define {purpose : Purpose} {name : String}
    (h : purpose.declared? = some name) :
    ∃ token, purpose = .define token ∧ token.lexeme = name := by
  cases purpose with
  | define token => cases h; exact ⟨token, rfl, rfl⟩
  | _ => cases h

/-- What a write leads to: the variable is overwritten where its depth leads, or it is a fault. -/
inductive Config.Writes (natives : Array Native) (c : Config) (v : Value) (r : Reference) (d : Nat)
    (holes : List Hole) (purpose : Purpose) : Bool → Prop
  | succeeds : step natives c = .config ⟨.give v ⟨holes, purpose⟩, c.stack,
      c.world.overwrite (c.world.env.ancestor d) r.name.lexeme v⟩ →
    c.Writes natives v r d holes purpose false
  /-- The write is part of the initializer of its own variable. -/
  | fails {name : Token} : d = 0 → purpose = .define name → name.lexeme = r.name.lexeme →
    step natives c = .config ⟨.raise (.undefined r.name), c.stack, c.world⟩ →
    c.Writes natives v r d holes purpose true

/-- **A write with a depth fails if and only if its name was pending when it was visited.** -/
theorem Config.Sound.writes {c : Config} (hsound : c.Sound vs births) (htracked : c.Tracked births)
    {v : Value} {u : Visit} {holes : List Hole} {purpose : Purpose}
    (hfocus : c.focus = .give v ⟨.assign u.reference :: holes, purpose⟩)
    (hfits : (c.world.ground vs births).Fits c.world.env u.levels) (hu : u.Sound)
    (htidy : u.levels.Tidy)
    (hdeclared : u.isPending = true → purpose.declared? = some u.reference.name.lexeme) {d : Nat}
    (hd : u.reference.depth = some d) :
    c.Writes natives v u.reference d holes purpose u.isPending := by
  cases hpending : u.isPending with
  | false =>
    exact .succeeds (step_write_bound hfocus hd (hfits.binds_of_depth hu htidy hpending hd))
  | true =>
    have hzero : d = 0 := Option.some.inj (hd.symm.trans (hu.depth_of_isPending hpending))
    subst hzero
    obtain ⟨name, rfl, hname⟩ := Purpose.eq_define (hdeclared hpending)
    refine .fails rfl rfl hname (step_write_unbound hfocus hd ?_)
    have hlevels : u.levels ≠ [] := by
      intro hnil
      rw [Visit.isPending, hnil] at hpending
      cases hpending
    obtain ⟨focus, stack, w⟩ := c
    cases hfocus
    have htracks : Machine.Tracked births w.store (some name.lexeme) w.env stack := htracked.stack
    rw [hname] at htracks
    obtain ⟨i, b, hframe, hb, hmem⟩ := hfits.innermost hlevels
    have hstack : stack ≠ [] := hsound.stack_ne_nil (hfits.frame_ne hlevels)
    have hhere : w.env.ancestor 0 = w.env := by rw [Env.ancestor]
    rw [hhere]
    exact htracks.not_binds hstack hframe hb (htidy.nodup _ hmem)

/-! ## Runs -/

/-- What holds at the start of each statement and is kept by every step holds all along. -/
theorem traceAll_induction {motive : Config → Prop}
    (hstep : ∀ c c', step natives c = .config c' → motive c → motive c') {fuel : Nat} :
    ∀ {ss : List Stmt} {w : World},
      (∀ s w', ⟨.exec s, [], w'⟩ ∈ traceAll natives fuel ss w → motive ⟨.exec s, [], w'⟩) →
      ∀ c ∈ traceAll natives fuel ss w, motive c := by
  intro ss
  induction ss with
  | nil => intro w _ c hc; exact (List.not_mem_nil hc).elim
  | cons s ss ih =>
    intro w hstart c hc
    rw [traceAll_cons] at hstart hc
    rcases List.mem_append.mp hc with hc | hc
    · refine trace_induction hstep fuel (hstart s w (List.mem_append_left _ ?_)) c hc
      cases fuel with
      | zero => exact (List.not_mem_nil hc).elim
      | succ fuel => exact List.mem_cons_self
    · cases hx : execute natives fuel s w with
      | none =>
        rw [hx] at hc
        exact (List.not_mem_nil hc).elim
      | some outcome =>
        obtain ⟨result, w₁⟩ := outcome
        rw [hx] at hc hstart
        cases result with
        | error e => exact (List.not_mem_nil hc).elim
        | ok flow => exact ih (fun s' w' hs => hstart s' w' (List.mem_append_right _ hs)) c hc

end Machine

namespace Session

open Machine (Config)

theorem trace_induction {motive : Config → Prop} {natives : Array Native}
    (hstep : ∀ c c', Machine.step natives c = .config c' → motive c → motive c') {fuel : Nat} :
    ∀ {sources : List String} {s : Session}, s.natives = natives →
      (∀ stmt w, ⟨.exec stmt, [], w⟩ ∈ s.trace fuel sources → motive ⟨.exec stmt, [], w⟩) →
      ∀ c ∈ s.trace fuel sources, motive c := by
  intro sources
  induction sources with
  | nil => intro s _ _ c hc; exact (List.not_mem_nil hc).elim
  | cons source rest ih =>
    intro s hnatives hstart c hc
    rw [trace_cons] at hstart hc
    rcases List.mem_append.mp hc with hc | hc
    · have hfirst : ∀ stmt w, ⟨.exec stmt, [], w⟩ ∈ s.traceOf fuel source →
          motive ⟨.exec stmt, [], w⟩ :=
        fun stmt w hs => hstart stmt w (List.mem_append_left _ hs)
      rw [traceOf_eq] at hc hfirst
      cases hread : s.read source with
      | mk result s₁ =>
        rw [hread] at hc hfirst
        cases result with
        | error ds => exact (List.not_mem_nil hc).elim
        | ok program =>
          have hsame : s₁.natives = natives := (read_regular hread).2.1.trans hnatives
          subst hsame
          exact Machine.traceAll_induction hstep hfirst c hc
    · cases hrun : s.run fuel source with
      | none =>
        rw [hrun] at hc
        exact (List.not_mem_nil hc).elim
      | some outcome =>
        obtain ⟨status, ds, s'⟩ := outcome
        rw [hrun] at hc hstart
        exact ih ((run_natives hrun).trans hnatives)
          (fun stmt w hs => hstart stmt w (List.mem_append_right _ hs)) c hc

variable {vs : List Visit}

/-- The references of a program that was accepted are accounted for. -/
theorem read_accounted {s : Session} {source : String} {program : List Stmt}
    (h : (s.read source).1 = .ok program) (hvisits : s.visitsOf source ⊆ vs) :
    ∀ stmt ∈ program, stmt.Accounted vs := by
  obtain ⟨hdiagnostics, herrors, rfl⟩ := Reading.check_ok h
  have hregular : Stmt.RegularAll (Reading.ofSource source s.nodes s.functions).program :=
    Stmt.regularAll_iff.mpr (Reading.program_formed source s.nodes s.functions).regular
  refine resolve_accounted hregular herrors ?_
  rw [visitsOf, hdiagnostics] at hvisits
  exact hvisits

/-- A session whose visits are among the given ones runs only code that they account for. -/
theorem Keeps.trace_accounted {fuel : Nat} : ∀ {sources : List String} {s : Session},
    s.Keeps (accounted vs) → s.visits fuel sources ⊆ vs →
    ∀ c ∈ s.trace fuel sources, c.Keeps (accounted vs) := by
  intro sources
  induction sources with
  | nil => intro s _ _ c hc; exact (List.not_mem_nil hc).elim
  | cons source rest ih =>
    intro s h hvisits c hc
    rw [visits, List.append_subset] at hvisits
    have hread : ∀ program, (s.read source).1 = .ok program →
        ∀ stmt ∈ program, stmt.Accounted vs :=
      fun program hprogram => read_accounted hprogram hvisits.1
    rw [Session.trace_cons] at hc
    rcases List.mem_append.mp hc with hc | hc
    · exact h.traceOf hread fuel c hc
    · cases hrun : s.run fuel source with
      | none =>
        rw [hrun] at hc
        exact (List.not_mem_nil hc).elim
      | some outcome =>
        obtain ⟨status, ds, s'⟩ := outcome
        rw [hrun] at hc hvisits
        exact ih (h.run hread hrun) hvisits.2 c hc

/-- What the configurations of a session keep: sound frames in use, and references accounted for. -/
structure Follows (us vs : List Visit) (c : Config) : Prop where
  keeps : c.Keeps (accounted us)
  references : c.Accounted us
  frames : ∃ births, c.Sound vs births ∧ c.Tracked births

/-- **All along a new session, frames in use are tracked and references accounted for.** -/
theorem new_follows {natives : List Native} (hn : ∀ n ∈ natives, n.Honest) (console : Console)
    (fuel : Nat) (sources : List String) :
    ∀ c ∈ (new natives console).trace fuel sources,
      Follows ((new natives console).visits fuel sources)
        ((new natives console).soundVisits fuel sources) c := by
  have hhonest := forall_natives_new hn console
  have hnew : (new natives console).Keeps (accounted ((new natives console).visits fuel sources)) :=
    new_keeps (fun n hmem => (hn n hmem).keeps _) (fun _ => trivial) console
  refine trace_induction ?_ rfl ?_
  · rintro c c' hstep ⟨hkeeps, hreferences, births, hsound, htracked⟩
    refine ⟨Machine.step_keeps hnew.natives hstep hkeeps, hreferences.step hkeeps hstep, _, ?_,
      htracked.step hsound hstep⟩
    exact Machine.step_sound (fun v hv => (mem_soundVisits.mp hv).2) hhonest hsound hstep
  · intro stmt w hmem
    obtain ⟨i, hi⟩ := List.mem_iff_getElem?.mp hmem
    obtain ⟨after, hchain⟩ := new_trace_chain hn console fuel sources hi
    exact ⟨hnew.trace_accounted (List.Subset.refl _) _ hmem,
      Machine.Config.accounted_of_references rfl (fun _ h => (List.not_mem_nil h).elim),
      _, hchain.sound_of_append, trivial, trivial⟩

/--
**A write with a depth fails only in the initializer of its own variable, and always there.**
Whenever a value is about to be assigned to a reference with a depth, in whatever run, resolution
visited the reference once; the variable is overwritten in the frame that the depth leads to unless
the name was pending at that visit, and then the write is a fault.
-/
theorem resolved_write_outcome {natives : List Native} (hn : ∀ n ∈ natives, n.Honest)
    (console : Console) (fuel : Nat) (sources : List String) {c : Config}
    (hc : c ∈ (new natives console).trace fuel sources) {v : Value} {r : Reference}
    {holes : List Machine.Hole} {purpose : Machine.Purpose}
    (hfocus : c.focus = .give v ⟨.assign r :: holes, purpose⟩) {d : Nat} (hd : r.depth = some d) :
    ∃ u ∈ (new natives console).visits fuel sources, u.access = .write ∧ u.reference = r ∧
      (∀ u' ∈ (new natives console).visits fuel sources, u'.reference.id = r.id → u' = u) ∧
      c.Writes (new natives console).natives v r d holes purpose u.isPending := by
  obtain ⟨-, hreferences, births, hsound, htracked⟩ := new_follows hn console fuel sources c hc
  have hreference : c.focus.reference? = some (.write, r) := by rw [hfocus]; rfl
  obtain ⟨levels, hfits, hv⟩ := hsound.focused.visit hreference
  obtain ⟨hmem, hsoundVisit⟩ := mem_soundVisits.mp hv
  have hunique : ∀ u' ∈ (new natives console).visits fuel sources, u'.reference.id = r.id →
      u' = ⟨.write, r, levels⟩ := fun u' hu' hid => visit_unique hmem hu' hid
  -- The visit that accounts for the reference is the one whose levels the frames fit.
  have haccounted := hreferences.focus (.write, r) (by rw [hfocus]; exact List.mem_cons_self)
  obtain ⟨u, hu, hentry, htidy, hpending⟩ := haccounted
  have hsame : u = ⟨.write, r, levels⟩ :=
    hunique u hu (congrArg (fun entry => entry.2.id) hentry)
  subst hsame
  rw [hfocus] at hpending
  exact ⟨_, hmem, rfl, rfl, hunique,
    hsound.writes htracked hfocus hfits hsoundVisit htidy hpending hd⟩

/--
Three runs: the first makes a function that writes a parameter, the second calls it, and the third
writes a local in its own initializer.
-/
def lateWrites : List String :=
  [":D mk(a) :> :D set() :> a o/ fawse; <: c: set; <: >.< g o/ mk(twue);", "g();",
    ":> >.< a o/ a o/ twue; <:"]

theorem lateWrites_visits :
    ((new Native.standard {}).visits 100 lateWrites).filterMap (fun u =>
      if u.access = .write then some (u.reference.id, u.isPending) else none) =
      [(2, false), (11, true)] := by
  decide +kernel

theorem lateWrites_isPending {u : Visit} (hu : u ∈ (new Native.standard {}).visits 100 lateWrites)
    (haccess : u.access = .write) : u.isPending = decide (u.reference.id = 11) := by
  have hmem : (u.reference.id, u.isPending) ∈ [(2, false), (11, true)] := by
    rw [← lateWrites_visits]
    exact List.mem_filterMap.mpr ⟨u, hu, if_pos haccess⟩
  simp only [List.mem_cons, Prod.mk.injEq, List.not_mem_nil, or_false] at hmem
  rcases hmem with ⟨hid, hpending⟩ | ⟨hid, hpending⟩
  · rw [hid, hpending]
    rfl
  · rw [hid, hpending]
    rfl

theorem lateWrites_parameter :
    (((new Native.standard {}).trace 100 lateWrites)[27]?).bind (fun c => c.focus.target?) =
      some ⟨2, ⟨.identifier, "a", 1⟩, some 1⟩ := by
  decide +kernel

theorem lateWrites_initializer :
    (((new Native.standard {}).trace 100 lateWrites)[39]?).bind (fun c => c.focus.target?) =
      some ⟨11, ⟨.identifier, "a", 1⟩, some 0⟩ := by
  decide +kernel

/-- The write of the parameter succeeds in the second run, that of the local fails in the third. -/
theorem resolved_write_outcome_late :
    (∃ c v r holes purpose, c ∈ (new Native.standard {}).trace 100 lateWrites ∧
      c.focus = .give v ⟨.assign r :: holes, purpose⟩ ∧ r.depth = some 1 ∧
      c.Writes (new Native.standard {}).natives v r 1 holes purpose false) ∧
    ∃ c v r holes purpose, c ∈ (new Native.standard {}).trace 100 lateWrites ∧
      c.focus = .give v ⟨.assign r :: holes, purpose⟩ ∧ r.depth = some 0 ∧
      c.Writes (new Native.standard {}).natives v r 0 holes purpose true := by
  have key : ∀ {i : Nat} {r : Reference} {d : Nat},
      (((new Native.standard {}).trace 100 lateWrites)[i]?).bind (fun c => c.focus.target?) =
        some r → r.depth = some d →
      ∃ c v r' holes purpose, c ∈ (new Native.standard {}).trace 100 lateWrites ∧
        c.focus = .give v ⟨.assign r' :: holes, purpose⟩ ∧ r'.depth = some d ∧
        c.Writes (new Native.standard {}).natives v r' d holes purpose (decide (r.id = 11)) := by
    intro i r d htarget hd
    obtain ⟨c, hc, hr⟩ := Option.bind_eq_some_iff.mp htarget
    obtain ⟨v, holes, purpose, hfocus⟩ := Machine.Focus.eq_of_target? hr
    have hmem := List.mem_of_getElem? hc
    obtain ⟨u, hu, haccess, hreference, -, hwrites⟩ :=
      resolved_write_outcome Native.standard_honest {} 100 lateWrites hmem hfocus hd
    rw [lateWrites_isPending hu haccess, hreference] at hwrites
    exact ⟨c, v, r, holes, purpose, hmem, hfocus, hd, hwrites⟩
  exact ⟨key lateWrites_parameter rfl, key lateWrites_initializer rfl⟩

/-! ## A write that fails -/

/-- A local that is written in its own initializer. -/
def ownInitializer : String := ":> >.< a o/ a o/ twue; <:"

theorem ownInitializer_accepted :
    ((new Native.standard {}).read ownInitializer).1.toOption.isSome = true := by
  decide +kernel

theorem ownInitializer_unbound :
    (((new Native.standard {}).trace 100 [ownInitializer])[5]?).bind (fun c =>
      c.focus.target?.map fun r =>
        (r.depth, c.world.store.binds (c.world.env.ancestor 0).frame r.name.lexeme)) =
      some (some 0, false) := by
  decide +kernel

/-- **Not every write with a depth succeeds**, though resolution accepts the program. -/
theorem resolved_write_can_fail :
    ((new Native.standard {}).read ownInitializer).1.toOption.isSome = true ∧
      ∃ c v r holes purpose, c ∈ (new Native.standard {}).trace 100 [ownInitializer] ∧
        c.focus = .give v ⟨.assign r :: holes, purpose⟩ ∧ r.depth = some 0 ∧
        Machine.step (new Native.standard {}).natives c =
          .config ⟨.raise (.undefined r.name), c.stack, c.world⟩ := by
  refine ⟨ownInitializer_accepted, ?_⟩
  obtain ⟨c, hc, hdata⟩ := Option.bind_eq_some_iff.mp ownInitializer_unbound
  obtain ⟨r, hr, hpair⟩ := Option.map_eq_some_iff.mp hdata
  rw [Prod.mk.injEq] at hpair
  obtain ⟨hdepth, hbinds⟩ := hpair
  obtain ⟨v, holes, purpose, hfocus⟩ := Machine.Focus.eq_of_target? hr
  exact ⟨c, v, r, holes, purpose, List.mem_of_getElem? hc, hfocus, hdepth,
    Machine.step_write_unbound hfocus hdepth hbinds⟩

end Session

end Nya
