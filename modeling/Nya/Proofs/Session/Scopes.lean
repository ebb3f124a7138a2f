import Mathlib.Data.List.Forall2
import Mathlib.Data.List.Nodup
import Nya.Proofs.Machine.History

/-!
# Scopes and frames

Whenever a reference with a depth is evaluated, the frames around it are those of the scopes that
resolution had around it: frame by frame, each was opened for just that block or function. So going
out by the depth never stops at the globals, and it ends at a frame of the scope in which the name
was found. If the reference is read, that frame binds the name.

* `Session.scopes_match_frames`
* `Session.resolved_reads_succeed`
-/

namespace Nya

variable {r : Reference} {natives : Array Native}

/-- The frames of a chain, the innermost first, without the last one. -/
def Env.locals : Env → List FrameId
  | root _ => []
  | child frame outer => frame :: outer.locals

theorem Env.locals_getElem? : ∀ {env : Env} {d : Nat}, d < env.locals.length →
    env.locals[d]? = some (env.ancestor d).frame
  | root _, _, h => absurd h (Nat.not_lt_zero _)
  | child _ _, 0, _ => rfl
  | child _ outer, _ + 1, h => by
    rw [locals, List.length_cons] at h
    exact outer.locals_getElem? (Nat.lt_of_succ_lt_succ h)

theorem Store.exists_read? {s : Store} {env : Env} {name : String}
    (h : s.binds env.frame name = true) : ∃ v, s.read? env name = some v := by
  obtain ⟨b, hb⟩ := Option.isSome_iff_exists.mp h
  exact ⟨b.load env, by rw [read?, hb, Option.map_some]⟩

namespace Machine

/-! ## Reads -/

theorem World.read?_of_depth {w : World} {d : Nat} (h : r.depth = some d) :
    w.read? r = w.store.readAt? w.env d r.name.lexeme := by
  simp [read?, h]

theorem World.read?_of_global {w : World} (h : r.depth = none) :
    w.read? r = w.global? r.name.lexeme := by
  simp [read?, h, global?]

theorem step_read_some {c : Config} {context : Context} (hfocus : c.focus = .eval (.read r) context)
    {v : Value} (hv : c.world.read? r = some v) :
    step natives c = .config ⟨.give v context, c.stack, c.world⟩ := by
  obtain ⟨focus, stack, w⟩ := c
  cases hfocus
  simp only [step, stepEval, hv]

/-- A read that is a fault found no value. -/
theorem read?_of_step_raise {c : Config} {context : Context}
    (hfocus : c.focus = .eval (.read r) context) {e : RuntimeError} {stack : List Task} {w : World}
    (h : step natives c = .config ⟨.raise e, stack, w⟩) :
    c.world.read? r = none ∧ e = .undefined r.name := by
  obtain ⟨focus, stack', w'⟩ := c
  cases hfocus
  cases hv : w'.read? r with
  | some v => simp [step, stepEval, hv] at h
  | none =>
    simp only [step, stepEval, hv, Next.config.injEq, Config.mk.injEq, Focus.raise.injEq] at h
    exact ⟨rfl, h.1.symm⟩

/-! ## Frames that fit -/

namespace Ground

variable {g : Ground} {env : Env} {levels : Levels}

theorem Fits.frames (h : g.Fits env levels) :
    env.frames = env.locals ++ [Machine.globals.frame] := by
  induction h with
  | globals => rfl
  | frame _ _ _ ih => rw [Env.frames, ih, Env.locals, List.cons_append]

/-- Every frame has its opening on the ground. -/
theorem Fits.forall₂ (h : g.Fits env levels) :
    List.Forall₂ (fun frame level => ∃ i outer, frame = i + 1 ∧
      g.births[i]? = some ⟨level.opener, outer⟩) env.locals levels := by
  induction h with
  | globals => exact .nil
  | @frame i outer level _ hb _ _ ih => exact .cons ⟨i, outer, rfl, hb⟩ ih

/-- A name that is ready in a level is bound in the frame of that level. -/
theorem Fits.binds (h : g.Fits env levels) : ∀ {d : Nat} {level : Level} {name : String},
    levels[d]? = some level → level.scope.ready? name = some true →
    g.store.binds (env.ancestor d).frame name = true := by
  induction h with
  | globals => intro d level name hl; simp at hl
  | frame hb hn ho ih =>
    intro d level name hl hr
    cases d with
    | zero =>
      cases hl
      exact hn name hr
    | succ d => exact ih hl hr

/-- The reference in focus was visited with levels that the environment fits. -/
theorem Focused.visit {stack : List Task} {focus : Focus} (h : g.Focused env stack focus)
    {access : Access} (hr : focus.reference? = some (access, r)) :
    ∃ levels, g.Fits env levels ∧ (⟨access, r, levels⟩ : Visit) ∈ g.visits := by
  unfold Focus.reference? at hr
  split at hr
  · cases hr
    obtain ⟨levels, hf, he, -⟩ := h
    exact ⟨levels, hf, he (.read, r) (List.mem_singleton.mpr rfl)⟩
  · cases hr
    obtain ⟨levels, hf, he, -⟩ := h
    exact ⟨levels, hf, he (.write, r) (List.mem_append_right _ (List.mem_singleton.mpr rfl))⟩
  · cases hr
    obtain ⟨-, levels, hf, ha⟩ := h
    exact ⟨levels, hf, ha.1 _ List.mem_cons_self⟩
  · cases hr

end Ground

/-! ## The correspondence -/

/--
What a configuration that evaluates a reference of depth `d` has to do with the visit of that
reference: the frames around it, the globals aside, were opened before for the levels of the visit,
in the same order; going out by `d` reaches one of these frames, and that level is the innermost one
that has the name.
-/
structure Config.Corresponds (natives : Array Native) (before : List Config) (c : Config)
    (v : Visit) (d : Nat) : Prop where
  frames : c.world.env.frames = c.world.env.locals ++ [globals.frame]
  opened : List.Forall₂ (fun frame level => ∃ c' ∈ before, c'.Opens natives frame level.opener)
    c.world.env.locals v.levels
  within : d < c.world.env.locals.length
  reached : c.world.env.locals[d]? = some (c.world.env.ancestor d).frame
  found : v.levels.scopes.depth? v.reference.name.lexeme = some d

/-- In a chain a frame with an opening was opened by a configuration before. -/
theorem Chain.opens {vs : List Visit} {before : List Config} (h : Chain vs [] before) {i : Nat}
    {opener : Opener} {outer : Env} (hb : (births before)[i]? = some ⟨opener, outer⟩) :
    ∃ c ∈ before, c.Opens natives (i + 1) opener := by
  obtain ⟨c, hc, hbirth, hnext⟩ := h.getElem?_births hb
  refine ⟨c, hc, ?_⟩
  have hopens : c.Opens natives c.world.store.next opener := Config.opens_of_birth? hbirth
  rw [hnext, List.length_nil, Nat.zero_add] at hopens
  exact hopens

theorem Config.corresponds_of_chain {vs : List Visit} (hvs : ∀ v ∈ vs, v.Sound)
    {before after : List Config} {c : Config} (h : Chain vs [] (before ++ c :: after))
    {levels : Levels} (hf : (c.world.ground vs (births before)).Fits c.world.env levels)
    {access : Access} (hv : (⟨access, r, levels⟩ : Visit) ∈ vs) {d : Nat} (hd : r.depth = some d) :
    c.Corresponds natives before ⟨access, r, levels⟩ d := by
  have hopened : List.Forall₂
      (fun frame level => ∃ c' ∈ before, c'.Opens natives frame level.opener)
      c.world.env.locals levels := by
    refine hf.forall₂.imp ?_
    rintro frame level ⟨i, outer, rfl, hb⟩
    exact h.left.opens hb
  have hwithin : d < c.world.env.locals.length := by
    rw [hopened.length_eq]
    exact (hvs _ hv).depth_lt hd
  exact ⟨hf.frames, hopened, hwithin, Env.locals_getElem? hwithin, (hvs _ hv).depth ▸ hd⟩

end Machine

namespace Session

open Machine (Chain Config)

/-- The visits of a session that are sound. -/
noncomputable def soundVisits (s : Session) (fuel : Nat) (sources : List String) : List Visit :=
  open Classical in (s.visits fuel sources).filter fun v => v.Sound

theorem mem_soundVisits {s : Session} {fuel : Nat} {sources : List String} {v : Visit} :
    v ∈ s.soundVisits fuel sources ↔ v ∈ s.visits fuel sources ∧ v.Sound := by
  simp [soundVisits]

/-- The trace of a new session, cut at one of its configurations, is a chain. -/
theorem new_trace_chain {natives : List Native} (hn : ∀ n ∈ natives, n.Honest) (console : Console)
    (fuel : Nat) (sources : List String) {i : Nat} {c : Config}
    (hc : ((new natives console).trace fuel sources)[i]? = some c) :
    ∃ after, Chain ((new natives console).soundVisits fuel sources) []
      (((new natives console).trace fuel sources).take i ++ c :: after) := by
  obtain ⟨hlt, rfl⟩ := List.getElem?_eq_some_iff.mp hc
  refine ⟨((new natives console).trace fuel sources).drop (i + 1), ?_⟩
  rw [← List.drop_eq_getElem_cons hlt, List.take_append_drop]
  exact (new_grounded hn console).trace (fun _ hv => (mem_soundVisits.mp hv).2) fuel
    (fun _ hv hs => mem_soundVisits.mpr ⟨hv, hs⟩)

theorem visit_unique {s : Session} {fuel : Nat} {sources : List String} {v v' : Visit}
    (hv : v ∈ s.visits fuel sources) (hv' : v' ∈ s.visits fuel sources)
    (h : v'.reference.id = v.reference.id) : v' = v := by
  obtain ⟨last, hfresh⟩ := visits_fresh fuel sources s
  exact List.inj_on_of_nodup_map hfresh.nodup hv' hv h

/--
**Static scopes match the frames at run time.** Whenever a reference with a depth is evaluated, it
is one that resolution visited, once only, and the frames around it correspond to the scopes that
were around it then.
-/
theorem scopes_match_frames {natives : List Native} (hn : ∀ n ∈ natives, n.Honest)
    (console : Console) (fuel : Nat) (sources : List String) {i : Nat} {c : Config}
    (hc : ((new natives console).trace fuel sources)[i]? = some c) {access : Access}
    {r : Reference} (hr : c.focus.reference? = some (access, r)) {d : Nat}
    (hd : r.depth = some d) :
    ∃ v ∈ (new natives console).visits fuel sources, v.access = access ∧ v.reference = r ∧
      (∀ v' ∈ (new natives console).visits fuel sources, v'.reference.id = r.id → v' = v) ∧
      c.Corresponds (new natives console).natives
        (((new natives console).trace fuel sources).take i) v d := by
  obtain ⟨after, hchain⟩ := new_trace_chain hn console fuel sources hc
  obtain ⟨levels, hf, hv⟩ := hchain.sound_of_append.focused.visit hr
  have hsession := (mem_soundVisits.mp hv).1
  refine ⟨_, hsession, rfl, rfl, fun v' hv' hid => visit_unique hsession hv' hid, ?_⟩
  exact Config.corresponds_of_chain (fun v hv => (mem_soundVisits.mp hv).2) hchain hf hv hd

/-- Two runs: the first makes a function that reads a parameter, the second calls it. -/
def laterCall : List String :=
  [":D mk(a) :> :D get() :> c: a; <: c: get; <: >.< g o/ mk(twue);", "pwint g();"]

theorem laterCall_reference :
    (((new Native.standard {}).trace 100 laterCall)[25]?).bind (fun c => c.focus.reference?) =
      some (.read, ⟨0, ⟨.identifier, "a", 1⟩, some 1⟩) := by
  decide +kernel

/-- The second run reads a parameter of a function that has returned in the first one. -/
theorem scopes_match_frames_later :
    ∃ c r v, ((new Native.standard {}).trace 100 laterCall)[25]? = some c ∧
      c.focus.reference? = some (.read, r) ∧ r.depth = some 1 ∧ v.reference = r ∧
      c.Corresponds (new Native.standard {}).natives
        (((new Native.standard {}).trace 100 laterCall).take 25) v 1 := by
  obtain ⟨c, hc, hr⟩ := Option.bind_eq_some_iff.mp laterCall_reference
  obtain ⟨v, -, -, hv, -, hcorresponds⟩ :=
    scopes_match_frames Native.standard_honest {} 100 laterCall hc hr rfl
  exact ⟨c, _, v, hc, hr, rfl, hv, hcorresponds⟩

/--
**Reads with a depth never fail.** A reference with a depth that is read has a value in the frame
that its depth leads to; only a read without a depth, of a global that is not there, is a fault.
-/
theorem resolved_reads_succeed {natives : List Native} (hn : ∀ n ∈ natives, n.Honest)
    (console : Console) (fuel : Nat) (sources : List String) {i : Nat} {c : Config}
    (hc : ((new natives console).trace fuel sources)[i]? = some c) {r : Reference}
    (hr : c.focus.reference? = some (.read, r)) :
    ∃ context, c.focus = .eval (.read r) context ∧
      (∀ d, r.depth = some d →
        ∃ v, c.world.store.readAt? c.world.env d r.name.lexeme = some v ∧
          Machine.step (new natives console).natives c =
            .config ⟨.give v context, c.stack, c.world⟩) ∧
      ∀ e stack w, Machine.step (new natives console).natives c = .config ⟨.raise e, stack, w⟩ →
        r.depth = none ∧ c.world.global? r.name.lexeme = none ∧ e = .undefined r.name := by
  obtain ⟨after, hchain⟩ := new_trace_chain hn console fuel sources hc
  obtain ⟨levels, hf, hv⟩ := hchain.sound_of_append.focused.visit hr
  obtain ⟨context, hfocus⟩ := Machine.Focus.eq_of_reference?_read hr
  have hdepth : ∀ d, r.depth = some d → ∃ v, c.world.store.readAt? c.world.env d r.name.lexeme =
      some v := by
    intro d hd
    -- The level that the depth leads to has the name ready, so its frame binds the name.
    obtain ⟨level, hlevel, hready⟩ := (mem_soundVisits.mp hv).2.ready rfl d hd
    exact Store.exists_read? (hf.binds hlevel hready)
  refine ⟨context, hfocus, ?_, ?_⟩
  · intro d hd
    obtain ⟨v, hvalue⟩ := hdepth d hd
    rw [← Machine.World.read?_of_depth hd] at hvalue
    exact ⟨v, Machine.World.read?_of_depth hd ▸ hvalue, Machine.step_read_some hfocus hvalue⟩
  · intro e stack w hstep
    obtain ⟨hnone, rfl⟩ := Machine.read?_of_step_raise hfocus hstep
    cases hd : r.depth with
    | none =>
      rw [Machine.World.read?_of_global hd] at hnone
      exact ⟨rfl, hnone, rfl⟩
    | some d =>
      obtain ⟨v, hvalue⟩ := hdepth d hd
      rw [Machine.World.read?_of_depth hd, hvalue] at hnone
      cases hnone

/-- The second run calls a function that the first one made: its read finds the frame of `mk`. -/
theorem resolved_reads_succeed_later :
    ∃ c r v, ((new Native.standard {}).trace 100 laterCall)[25]? = some c ∧
      c.focus.reference? = some (.read, r) ∧ r.depth = some 1 ∧
      c.world.store.readAt? c.world.env 1 r.name.lexeme = some v := by
  obtain ⟨c, hc, hr⟩ := Option.bind_eq_some_iff.mp laterCall_reference
  obtain ⟨_, _, hreads, -⟩ :=
    resolved_reads_succeed Native.standard_honest {} 100 laterCall hc hr
  obtain ⟨v, hv, -⟩ := hreads 1 rfl
  exact ⟨c, _, v, hc, hr, rfl, hv⟩

end Session

end Nya
