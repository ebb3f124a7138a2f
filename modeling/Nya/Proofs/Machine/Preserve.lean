import Nya.Proofs.Machine.Ground
import Nya.Proofs.Native.Conditions

/-!
# Steps keep configurations sound

A configuration is sound if its store is, and if what it is about to do and what is left to do are
scoped at levels that the environments fit. Each step keeps this; a step that opens a scope adds the
opening to the ground. What a whole run keeps follows in `Machine/History.lean`.

Natives are taken to be honest, so that the functions that they yield are valid.
-/

namespace Nya

namespace Machine

variable {levels : Levels} {context : Context} {natives : Array Native}

/-- The ground of a world. -/
def World.ground (w : World) (vs : List Visit) (births : List Birth) : Ground :=
  ⟨vs, births, w.store⟩

/-- What the machine is about to do is scoped, and so is what is left to do after it. -/
def Ground.Focused (g : Ground) (env : Env) (stack : List Task) : Focus → Prop
  | .eval e context =>
    ∃ levels, g.Fits env levels ∧ e.Scoped g.visits levels ∧ g.Awaits env levels context stack
  | .give v context => g.Valid v ∧ ∃ levels, g.Fits env levels ∧ g.Awaits env levels context stack
  | .exec s =>
    ∃ levels, g.Fits env levels ∧ s.Scoped g.visits levels ∧
      g.Stacks env (s.afterLevels levels) stack
  | .execAll ss =>
    ∃ levels, g.Fits env levels ∧ Stmt.ScopedAll g.visits levels ss ∧
      g.Stacks env (Stmt.afterLevelsAll levels ss) stack
  | .finish .completed => ∃ levels, g.Fits env levels ∧ g.Stacks env levels stack
  | .finish (.returning v) => g.Valid v ∧ ∃ levels, g.Stacks env levels stack
  | .raise _ => ∃ levels, g.Stacks env levels stack

/-- A configuration whose store is sound and whose focus and stack are scoped. -/
structure Config.Sound (vs : List Visit) (births : List Birth) (c : Config) : Prop where
  ground : (c.world.ground vs births).Sound
  focused : (c.world.ground vs births).Focused c.world.env c.stack c.focus

variable {vs : List Visit} {births : List Birth} {stack : List Task} {w : World}

/-- A step that opens nothing leaves the openings as they were. -/
theorem Config.Sound.keep {c : Config} (h : Config.Sound vs births c) :
    Config.Sound vs (births ++ (none : Option Birth).toList) c := by
  rw [Option.toList_none, List.append_nil]
  exact h

/-! ## Variables -/

/-- What a reference reads is valid. -/
theorem World.read?_valid (hvs : ∀ v ∈ vs, v.Sound) (hg : (w.ground vs births).Sound)
    (hf : (w.ground vs births).Fits w.env levels) {access : Access} {r : Reference}
    (hr : (⟨access, r, levels⟩ : Visit) ∈ vs) {v : Value} (h : w.read? r = some v) :
    (w.ground vs births).Valid v := by
  unfold World.read? at h
  cases hd : r.depth with
  | none =>
    rw [hd] at h
    exact hg.lookup? h
  | some d =>
    rw [hd] at h
    exact hg.read? (hf.ancestor ((hvs _ hr).depth_lt hd)) h

/-- The frame that holds the variable of a reference exists. -/
theorem World.holder?_lt (hvs : ∀ v ∈ vs, v.Sound) (hg : (w.ground vs births).Sound)
    (hf : (w.ground vs births).Fits w.env levels) {access : Access} {r : Reference}
    (hr : (⟨access, r, levels⟩ : Visit) ∈ vs) {holder : Env} (h : w.holder? r = some holder) :
    holder.frame < w.store.next := by
  unfold World.holder? at h
  cases hd : r.depth with
  | none =>
    rw [hd] at h
    simp only [globals, Store.holder?] at h
    split at h
    · cases h
      exact Ground.Fits.frame_lt hg .globals
    · cases h
  | some d =>
    rw [hd] at h
    simp only [Store.holderAt?] at h
    split at h
    · cases h
      exact Ground.Fits.frame_lt hg (hf.ancestor ((hvs _ hr).depth_lt hd))
    · cases h

/-! ## Expressions -/

theorem Ground.Awaits.stacks {g : Ground} {env : Env} (h : g.Awaits env levels context stack) :
    ∃ levels, g.Stacks env levels stack :=
  ⟨h.2.choose, h.2.choose_spec.2⟩

/-- Starting an expression keeps a configuration sound. -/
theorem stepEval_sound (hvs : ∀ v ∈ vs, v.Sound) {e : Expr}
    (h : Config.Sound vs births ⟨.eval e context, stack, w⟩) :
    Config.Sound vs births (stepEval e context stack w) := by
  obtain ⟨hg, levels, hf, he, ha⟩ := h
  cases e with
  | literal id value =>
    refine ⟨hg, ?_, levels, hf, ha⟩
    cases value <;> trivial
  | read target =>
    have hr := he (.read, target) (List.mem_singleton.mpr rfl)
    simp only [stepEval]
    cases hv : w.read? target with
    | none => exact ⟨hg, ha.stacks⟩
    | some v => exact ⟨hg, World.read?_valid hvs hg hf hr hv, levels, hf, ha⟩
  | assign target value =>
    have hw : (w.ground vs births).Fills levels (.assign target) :=
      he (.write, target) (List.mem_append_right _ (List.mem_singleton.mpr rfl))
    exact ⟨hg, levels, hf, fun r hr => he r (List.mem_append_left _ hr), ha.push hw⟩
  | unary id operator right => exact ⟨hg, levels, hf, he, ha.push trivial⟩
  | binary id left operator right =>
    have hr : (w.ground vs births).Fills levels (.binaryLeft operator right) :=
      fun r hr => he r (List.mem_append_right _ hr)
    exact ⟨hg, levels, hf, fun r hr => he r (List.mem_append_left _ hr), ha.push hr⟩
  | logical id left operator right =>
    have hr : (w.ground vs births).Fills levels (.logical operator right) :=
      fun r hr => he r (List.mem_append_right _ hr)
    exact ⟨hg, levels, hf, fun r hr => he r (List.mem_append_left _ hr), ha.push hr⟩
  | group id inner => exact ⟨hg, levels, hf, he, ha⟩
  | call id callee arguments paren =>
    have hr : (w.ground vs births).Fills levels (.callee arguments paren) :=
      fun e hm r hr => he r (List.mem_append_right _ (Expr.mem_referencesAll hm hr))
    exact ⟨hg, levels, hf, fun r hr => he r (List.mem_append_left _ hr), ha.push hr⟩

theorem yield_sound {result : Except RuntimeError Value} (hg : (w.ground vs births).Sound)
    (hf : (w.ground vs births).Fits w.env levels)
    (ha : (w.ground vs births).Awaits w.env levels context stack)
    (hv : ∀ v, result = .ok v → (w.ground vs births).Valid v) :
    Config.Sound vs births (yield result context stack w) := by
  cases result with
  | ok v => exact ⟨hg, hv v rfl, levels, hf, ha⟩
  | error e => exact ⟨hg, ha.stacks⟩

/-! ## Calls -/

/-- Binding the parameters makes their names ready. -/
theorem bindParams_sound {params : List Token} : ∀ {args : List Value} {w : World}
    {levels : Levels}, args.length = params.length → (w.ground vs births).Sound →
    (w.ground vs births).Fits w.env levels → (∀ v ∈ args, (w.ground vs births).Valid v) →
    ((w.bindParams params args).ground vs births).Sound ∧
      (w.ground vs births).Grows ((w.bindParams params args).ground vs births) ∧
      ((w.bindParams params args).ground vs births).Fits (w.bindParams params args).env
        (params.foldl (fun levels param => levels.introduce param.lexeme) levels) ∧
      (w.bindParams params args).env = w.env := by
  induction params with
  | nil =>
    intro args w levels _ hg hf _
    rw [World.bindParams]
    · exact ⟨hg, .refl _, hf, rfl⟩
    · intro _ _ _ _ h
      cases h
  | cons param params ih =>
    -- A parameter is declared and defined in one go, so its name is ready for the next one.
    intro args w levels hlen hg hf hv
    cases args with
    | nil => simp at hlen
    | cons arg args =>
      have hlt : w.env.frame < w.store.next := hf.frame_lt hg
      have hgrow := (w.ground vs births).grows_bind w.env.frame param.lexeme (.value arg)
      have hfits := (hf.mono hgrow).declare param.lexeme
      obtain ⟨h1, h2, h3, h4⟩ := ih (w := w.define param.lexeme arg) (by simpa using hlen)
        (hg.bind_value hlt (hv arg List.mem_cons_self))
        (hfits.define (Store.binds_bind_self hlt _ _))
        (fun v hm => (hv v (List.mem_cons_of_mem _ hm)).mono hgrow)
      exact ⟨h1, hgrow.trans h2, h3, h4⟩

/-- Entering a function opens its scope. -/
theorem enterCall_sound {d : Declaration} {env : Env} {args : List Value} (natives : Array Native)
    (paren : Token) (hg : (w.ground vs births).Sound) (hf : (w.ground vs births).Fits w.env levels)
    (ha : (w.ground vs births).Awaits w.env levels context stack)
    (hd : (w.ground vs births).Valid (.closure d env))
    (hv : ∀ v ∈ args, (w.ground vs births).Valid v) (hlen : args.length = d.params.length) :
    Config.Sound vs (births ++ [⟨.function d, env⟩])
      (enterCall natives (.closure d env) args paren context stack w) := by
  obtain ⟨around, henv, hbody⟩ := hd
  obtain ⟨hh, after, hp, hs⟩ := ha
  have hgrow := (w.ground vs births).grows_push ⟨.function d, env⟩
  have hsound : ((World.enter { w with calls := w.calls + 1 } env).ground vs
      (births ++ [⟨.function d, env⟩])).Sound := hg.push ⟨.function d, env⟩
  obtain ⟨h1, h2, h3, -⟩ := bindParams_sound hlen hsound (hg.fits_push henv (.function d))
    (fun v hm => (hv v hm).mono hgrow)
  have hgrow' := hgrow.trans h2
  refine ⟨h1, around.call d, h3, hbody, ?_⟩
  exact .back (hf.mono hgrow') (fun hole hm => (hh hole hm).mono hgrow') (hp.mono hgrow')
    (hs.mono hgrow')

/-- A native that is honest yields a valid value. -/
theorem callNative_sound {native : Native} (hn : native.Honest) {args : List Value} (paren : Token)
    (hg : (w.ground vs births).Sound) (hf : (w.ground vs births).Fits w.env levels)
    (ha : (w.ground vs births).Awaits w.env levels context stack)
    (hv : ∀ v ∈ args, (w.ground vs births).Valid v) :
    Config.Sound vs births (callNative native args paren context stack w) := by
  unfold callNative
  cases hr : native.run w.global? args w.console with
  | mk result console =>
    cases result with
    | error message => exact ⟨hg, ha.stacks⟩
    | ok v =>
      refine ⟨hg, ?_, levels, hf, ha⟩
      cases v with
      | closure d env =>
        rcases hn w.global? args w.console d env (by rw [hr]) with hm | ⟨name, hm⟩
        · exact hv _ hm
        · exact hg.lookup? hm
      | _ => trivial

/-- Making a call keeps a configuration sound. -/
theorem call_sound (hn : ∀ n ∈ natives, n.Honest) {callee : Value} {args : List Value}
    (paren : Token) (hg : (w.ground vs births).Sound) (hf : (w.ground vs births).Fits w.env levels)
    (ha : (w.ground vs births).Awaits w.env levels context stack)
    (hc : (w.ground vs births).Valid callee) (hv : ∀ v ∈ args, (w.ground vs births).Valid v) :
    Config.Sound vs (births ++ (callBirth? callee args w).toList)
      (call natives callee args paren context stack w) := by
  -- A call that is refused opens nothing.
  have hraise : ∀ e, Config.Sound vs births ⟨.raise e, stack, w⟩ := fun e => ⟨hg, ha.stacks⟩
  cases callee with
  | closure d env =>
    simp only [call, arity?, callBirth?]
    by_cases hlen : args.length = d.params.length
    · by_cases hcalls : w.calls < maxCalls
      · simp only [hlen, hcalls, ne_eq, not_true_eq_false, if_false, Nat.not_le.mpr hcalls,
          and_self, if_true]
        exact enterCall_sound natives paren hg hf ha hc hv hlen
      · simpa [hlen, hcalls, Nat.not_lt.mp hcalls] using hraise _
    · simpa [hlen] using hraise _
  | native f =>
    simp only [call, arity?, callBirth?, Option.toList_none, List.append_nil]
    split
    · exact hraise _
    · split
      · exact hraise _
      · simp only [enterCall]
        cases hfun : natives[f.id]? with
        | none => exact hraise _
        | some native =>
          exact callNative_sound (hn native (Array.mem_of_getElem? hfun)) paren hg hf ha hv
  | _ => simpa [call, arity?, callBirth?] using hraise _

/-! ## Giving a value -/

theorem applyUnary_valid {g : Ground} {operator : Token} {right v : Value}
    (h : applyUnary operator right = .ok v) : g.Valid v := by
  unfold applyUnary at h
  split at h
  · cases h
    trivial
  · split at h
    · cases h
      trivial
    · cases h
  · cases h

theorem add_valid {g : Ground} {operator : Token} {left right v : Value}
    (h : add operator left right = .ok v) : g.Valid v := by
  unfold add at h
  split at h <;> cases h <;> trivial

theorem arithmetic_valid {g : Ground} {operator : Token} {x y : Float} {v : Value}
    (h : arithmetic operator x y = .ok v) : g.Valid v := by
  unfold arithmetic at h
  split at h <;> cases h <;> trivial

theorem applyBinary_valid {g : Ground} {operator : Token} {left right v : Value}
    (h : applyBinary operator left right = .ok v) : g.Valid v := by
  unfold applyBinary at h
  split at h
  · cases h
    trivial
  · cases h
    trivial
  · exact add_valid h
  · split at h
    · exact arithmetic_valid h
    · cases h

/-- Going on with the arguments of a call keeps a configuration sound. -/
theorem nextArgument_sound (hn : ∀ n ∈ natives, n.Honest) {callee : Value} {done : List Value}
    {rest : List Expr} (paren : Token) (hg : (w.ground vs births).Sound)
    (hf : (w.ground vs births).Fits w.env levels)
    (ha : (w.ground vs births).Awaits w.env levels context stack)
    (hc : (w.ground vs births).Valid callee) (hd : ∀ v ∈ done, (w.ground vs births).Valid v)
    (hr : ∀ e ∈ rest, e.Scoped vs levels) :
    Config.Sound vs
      (births ++ (if rest.isEmpty then callBirth? callee done w else none).toList)
      (nextArgument natives callee done rest paren context stack w) := by
  cases rest with
  | nil =>
    have key := call_sound hn paren hg hf ha hc (fun v hm => hd v (List.mem_reverse.mp hm))
    rw [callBirth?_reverse] at key
    exact key
  | cons e rest =>
    have hh : (w.ground vs births).Fills levels (.argument callee done rest paren) :=
      ⟨hc, hd, fun e' hm => hr e' (List.mem_cons_of_mem _ hm)⟩
    simp only [List.isEmpty_cons, Bool.false_eq_true, if_false, Option.toList_none, List.append_nil]
    exact ⟨hg, levels, hf, hr e List.mem_cons_self, ha.push hh⟩

/-- Giving a value to the expression around it keeps a configuration sound. -/
theorem fill_sound (hvs : ∀ v ∈ vs, v.Sound) (hn : ∀ n ∈ natives, n.Honest) {v : Value}
    {hole : Hole} {holes : List Hole} {purpose : Purpose}
    (h : Config.Sound vs births ⟨.give v ⟨hole :: holes, purpose⟩, stack, w⟩) :
    Config.Sound vs
      (births ++ (Config.birth? ⟨.give v ⟨hole :: holes, purpose⟩, stack, w⟩).toList)
      (fill natives v hole ⟨holes, purpose⟩ stack w) := by
  obtain ⟨hg, hv, levels, hf, hh, after, hp, hs⟩ := h
  have hhole := hh hole List.mem_cons_self
  have ha : (w.ground vs births).Awaits w.env levels ⟨holes, purpose⟩ stack :=
    ⟨fun hole' hm => hh hole' (List.mem_cons_of_mem _ hm), after, hp, hs⟩
  cases hole with
  | assign target =>
    refine .keep ?_
    simp only [fill]
    cases hholder : w.holder? target with
    | none => exact ⟨hg, ha.stacks⟩
    | some holder =>
      -- A frame that is written to must exist, or the store would not stay sound.
      have hlt := World.holder?_lt hvs hg hf hhole hholder
      have hgrow := (w.ground vs births).grows_bind holder.frame target.name.lexeme (.value v)
      exact ⟨hg.bind_value hlt hv, hv.mono hgrow, levels, hf.mono hgrow, ha.mono hgrow⟩
  | unary operator =>
    exact .keep (yield_sound hg hf ha fun v => applyUnary_valid)
  | binaryLeft operator right =>
    have hright : (w.ground vs births).Fills levels (.binaryRight v operator) := hv
    exact .keep ⟨hg, levels, hf, hhole, ha.push hright⟩
  | binaryRight left operator =>
    exact .keep (yield_sound hg hf ha fun v => applyBinary_valid)
  | logical operator right =>
    refine .keep ?_
    simp only [fill]
    split
    · exact ⟨hg, hv, levels, hf, ha⟩
    · exact ⟨hg, levels, hf, hhole, ha⟩
  | callee arguments paren =>
    have key := nextArgument_sound hn paren hg hf ha hv
      (fun v hm => absurd hm List.not_mem_nil) hhole
    cases arguments <;> exact key
  | argument callee done rest paren =>
    obtain ⟨hc, hd, hr⟩ := hhole
    have hdone : ∀ v' ∈ v :: done, (w.ground vs births).Valid v' := by
      intro v' hm
      rcases List.mem_cons.mp hm with rfl | hm
      · exact hv
      · exact hd v' hm
    have key := nextArgument_sound hn paren hg hf ha hc hdone hr
    cases rest <;> exact key

/-- Giving a value to the statement that waits for it keeps a configuration sound. -/
theorem fulfil_sound {v : Value} {purpose : Purpose}
    (h : Config.Sound vs births ⟨.give v ⟨[], purpose⟩, stack, w⟩) :
    Config.Sound vs births (fulfil v purpose stack w) := by
  obtain ⟨hg, hv, levels, hf, -, after, hp, hs⟩ := h
  cases purpose with
  | discard =>
    cases hp
    exact ⟨hg, levels, hf, hs⟩
  | print =>
    cases hp
    exact ⟨hg, levels, hf, hs⟩
  | define name =>
    cases hp
    have hlt : w.env.frame < w.store.next := hf.frame_lt hg
    have hgrow := (w.ground vs births).grows_bind w.env.frame name.lexeme (.value v)
    exact ⟨hg.bind_value hlt hv, levels.define name.lexeme,
      (hf.mono hgrow).define (Store.binds_bind_self hlt _ _), hs.mono hgrow⟩
  | choose thenBranch elseBranch =>
    -- Neither branch is a declaration, so both leave the levels as they were.
    obtain ⟨rfl, ht, he⟩ := hp
    simp only [fulfil]
    split
    · exact ⟨hg, after, hf, ht.2, by rw [ht.2.afterLevels_eq ht.1]; exact hs⟩
    · cases elseBranch with
      | none => exact ⟨hg, after, hf, hs⟩
      | some s =>
        obtain ⟨hd, hsc⟩ := he s rfl
        exact ⟨hg, after, hf, hsc, by rw [hsc.afterLevels_eq hd]; exact hs⟩
  | iterate condition body =>
    obtain ⟨rfl, hc, hd, hb⟩ := hp
    simp only [fulfil]
    split
    · refine ⟨hg, after, hf, hb, ?_⟩
      rw [hb.afterLevels_eq hd]
      exact .again hc hd hb hs
    · exact ⟨hg, after, hf, hs⟩
  | ret =>
    cases hp
    exact ⟨hg, hv, levels, hs⟩

/-! ## Statements -/

/-- Starting a statement keeps a configuration sound; a block opens its scope. -/
theorem stepExec_sound {s : Stmt} (h : Config.Sound vs births ⟨.exec s, stack, w⟩) :
    Config.Sound vs (births ++ (Config.birth? ⟨.exec s, stack, w⟩).toList)
      (stepExec s stack w) := by
  obtain ⟨hg, levels, hf, hsc, hs⟩ := h
  -- Only a block has an opening, so all other cases are about the openings as they were.
  have hawait : ∀ {levels after : Levels} {purpose : Purpose},
      (w.ground vs births).Leads levels purpose after →
      (w.ground vs births).Stacks w.env after stack →
      (w.ground vs births).Awaits w.env levels ⟨[], purpose⟩ stack :=
    fun hp hs => ⟨fun _ hm => absurd hm List.not_mem_nil, _, hp, hs⟩
  cases s with
  | expression e => exact .keep ⟨hg, levels, hf, hsc, hawait rfl hs⟩
  | print e => exact .keep ⟨hg, levels, hf, hsc, hawait rfl hs⟩
  | var name init =>
    cases init with
    | none =>
      have hlt : w.env.frame < w.store.next := hf.frame_lt hg
      have hgrow := (w.ground vs births).grows_bind w.env.frame name.lexeme (.value .nil)
      have hfits := ((hf.mono hgrow).declare name.lexeme).define (Store.binds_bind_self hlt _ _)
      exact .keep ⟨hg.bind_value hlt trivial, levels.introduce name.lexeme, hfits, hs.mono hgrow⟩
    | some e =>
      exact .keep ⟨hg, levels.declare name.lexeme, hf.declare name.lexeme, hsc e rfl,
        hawait rfl hs⟩
  | block body =>
    have hgrow := (w.ground vs births).grows_push ⟨.block body, w.env⟩
    exact ⟨hg.push _, levels.enter (.block body), hg.fits_push hf (.block body), hsc,
      .leave (hf.mono hgrow) (hs.mono hgrow)⟩
  | branch condition thenBranch elseBranch =>
    have hafter := hsc.afterLevels_eq rfl
    simp only [hafter] at hs
    cases elseBranch with
    | none =>
      have hleads : (w.ground vs births).Leads levels (.choose thenBranch none) levels :=
        ⟨rfl, hsc.2, by simp⟩
      exact .keep ⟨hg, levels, hf, hsc.1, hawait hleads hs⟩
    | some e =>
      have hleads : (w.ground vs births).Leads levels (.choose thenBranch (some e)) levels :=
        ⟨rfl, hsc.1.2, by rintro s ⟨⟩; exact hsc.2⟩
      exact .keep ⟨hg, levels, hf, hsc.1.1, hawait hleads hs⟩
  | loop condition body =>
    have hafter := hsc.afterLevels_eq rfl
    simp only [hafter] at hs
    exact .keep ⟨hg, levels, hf, hsc.1, hawait ⟨rfl, hsc⟩ hs⟩
  | function id name params body =>
    have hlt : w.env.frame < w.store.next := hf.frame_lt hg
    have hgrow := (w.ground vs births).grows_bind w.env.frame name.lexeme
      (.function ⟨id, name, params, body⟩)
    have hfits := ((hf.mono hgrow).declare name.lexeme).define (Store.binds_bind_self hlt _ _)
    exact .keep ⟨hg.bind hlt ⟨w.env, rfl, levels.introduce name.lexeme, hfits, hsc⟩,
      levels.introduce name.lexeme, hfits, hs.mono hgrow⟩
  | ret keyword value =>
    cases value with
    | none => exact .keep ⟨hg, trivial, levels, hs⟩
    | some e => exact .keep ⟨hg, levels, hf, hsc e rfl, hawait rfl hs⟩

/-- Going on after a statement keeps a configuration sound. -/
theorem resume_sound {flow : Flow} {task : Task}
    (h : Config.Sound vs births ⟨.finish flow, task :: stack, w⟩) :
    Config.Sound vs births (resume flow task stack w) := by
  obtain ⟨hg, hfocus⟩ := h
  cases flow with
  | completed =>
    obtain ⟨levels, hf, hs⟩ := hfocus
    cases hs with
    | sequence hr hs => exact ⟨hg, levels, hf, hr, hs⟩
    | again hc hd hb hs =>
      exact ⟨hg, levels, hf, hc, fun _ hm => absurd hm List.not_mem_nil, levels,
        ⟨rfl, hc, hd, hb⟩, hs⟩
    | leave hf hs => exact ⟨hg, _, hf, hs⟩
    | back hf hh hp hs => exact ⟨hg, trivial, _, hf, hh, _, hp, hs⟩
  | returning v =>
    obtain ⟨hv, levels, hs⟩ := hfocus
    cases hs with
    | sequence _ hs => exact ⟨hg, hv, _, hs⟩
    | again _ _ _ hs => exact ⟨hg, hv, _, hs⟩
    | leave _ hs => exact ⟨hg, hv, _, hs⟩
    | back hf hh hp hs => exact ⟨hg, hv, _, hf, hh, _, hp, hs⟩

/-- Dropping a task after a fault keeps a configuration sound. -/
theorem unwind_sound {error : RuntimeError} {task : Task}
    (h : Config.Sound vs births ⟨.raise error, task :: stack, w⟩) :
    Config.Sound vs births (unwind error task stack w) := by
  obtain ⟨hg, levels, hs⟩ := h
  cases hs with
  | sequence _ hs => exact ⟨hg, _, hs⟩
  | again _ _ _ hs => exact ⟨hg, _, hs⟩
  | leave _ hs => exact ⟨hg, _, hs⟩
  | back _ _ _ hs => exact ⟨hg, _, hs⟩

/-! ## Steps -/

/-- **A step keeps a configuration sound, with what it opens added to the openings.** -/
theorem step_sound (hvs : ∀ v ∈ vs, v.Sound) (hn : ∀ n ∈ natives, n.Honest) {c c' : Config}
    (h : Config.Sound vs births c) (hstep : step natives c = .config c') :
    Config.Sound vs (births ++ c.birth?.toList) c' := by
  obtain ⟨focus, stack, w⟩ := c
  cases focus with
  | eval e context =>
    cases hstep
    exact .keep (stepEval_sound hvs h)
  | give v context =>
    cases hstep
    obtain ⟨holes, purpose⟩ := context
    cases holes with
    | nil => exact .keep (fulfil_sound h)
    | cons hole holes => exact fill_sound hvs hn h
  | exec s =>
    cases hstep
    exact stepExec_sound h
  | execAll ss =>
    obtain ⟨hg, levels, hf, hsc, hs⟩ := h
    cases ss with
    | nil =>
      cases hstep
      exact .keep ⟨hg, levels, hf, hs⟩
    | cons s ss =>
      cases hstep
      exact .keep ⟨hg, levels, hf, hsc.1, .sequence hsc.2 hs⟩
  | finish flow =>
    cases stack with
    | nil => cases hstep
    | cons task stack =>
      cases hstep
      exact .keep (resume_sound h)
  | raise error =>
    cases stack with
    | nil => cases hstep
    | cons task stack =>
      cases hstep
      exact .keep (unwind_sound h)

/-- A run that has ended is back in the environment of the globals, and its store is sound. -/
theorem halt_sound {c : Config} (h : Config.Sound vs births c) {result : Except RuntimeError Flow}
    {w : World} (hstep : step natives c = .halt result w) :
    (w.ground vs births).Sound ∧ w.env = globals ∧ c.birth? = none := by
  obtain ⟨focus, stack, w⟩ := c
  cases focus with
  | eval e context => cases hstep
  | give v context => cases hstep
  | exec s => cases hstep
  | execAll ss => cases ss <;> cases hstep
  | finish flow =>
    cases stack with
    | cons task stack => cases hstep
    | nil =>
      cases hstep
      obtain ⟨hg, hfocus⟩ := h
      refine ⟨hg, ?_, rfl⟩
      cases flow with
      | completed =>
        obtain ⟨levels, -, hs⟩ := hfocus
        cases hs with
        | nil he => exact he
      | returning v =>
        obtain ⟨-, levels, hs⟩ := hfocus
        cases hs with
        | nil he => exact he
  | raise error =>
    cases stack with
    | cons task stack => cases hstep
    | nil =>
      cases hstep
      obtain ⟨hg, levels, hs⟩ := h
      refine ⟨hg, ?_, rfl⟩
      cases hs with
      | nil he => exact he

end Machine

end Nya
