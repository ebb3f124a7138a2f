import Nya.Proofs.Env.Frames
import Nya.Proofs.Machine.Trace
import Nya.Proofs.Scope.Scoped

/-!
# Frames and scopes

An environment *fits* levels if its frames, the globals aside, were opened by the openers of the
levels, in the same order, and each frame binds at least the names that are ready in its scope. What
this rests on, the visits, the openings so far and the store, is the *ground*.

A ground only grows: frames are added, and names are bound but never unbound. So what fits once
fits from then on, and a function that is valid when it is made is valid whenever it is called.

* `Born` for chains whose frames were opened one inside of the other
* `Ground.Fits`, `Ground.Valid` for environments and values
* `Ground.Sound` for the store: every binding is valid, read along the chain of its frame
* `Ground.Stacks` for what is left to do
-/

namespace Nya

namespace Machine

variable {levels : Levels} {g : Ground}

/-! ## Chains that were opened -/

/-- Every frame of the chain, the globals aside, was opened inside of the rest of it. -/
inductive Born (births : List Birth) : Env → Prop
  | globals : Born births globals
  | child {i : Nat} {opener : Opener} {outer : Env} (h : births[i]? = some ⟨opener, outer⟩)
    (houter : Born births outer) : Born births (.child (i + 1) outer)

namespace Born

variable {births births' : List Birth} {env : Env}

/-- A frame lies on one chain only. -/
theorem apart (births : List Birth) : Env.Apart (Born births) := by
  intro env env' h h' he
  cases h with
  | globals =>
    cases h' with
    | globals => rfl
    | child _ _ => simp [Machine.globals, Env.frame] at he
  | @child i opener outer hb _ =>
    cases h' with
    | globals => simp [Machine.globals, Env.frame] at he
    | @child j opener' outer' hb' _ =>
      have hij : i = j := by simpa [Env.frame] using he
      subst hij
      rw [hb, Option.some.injEq, Birth.mk.injEq] at hb'
      rw [hb'.2]

theorem mono (h : Born births env) (hbirths : births <+: births') : Born births' env := by
  obtain ⟨rest, rfl⟩ := hbirths
  induction h with
  | globals => exact .globals
  | child hb _ ih =>
    obtain ⟨hlt, -⟩ := List.getElem?_eq_some_iff.mp hb
    exact .child (by rw [List.getElem?_append_left hlt, hb]) ih

theorem ancestor (h : Born births env) (n : Nat) : Born births (env.ancestor n) := by
  induction h generalizing n with
  | globals => rw [Machine.globals, Env.ancestor_root]; exact .globals
  | child hb houter ih =>
    cases n with
    | zero => exact .child hb houter
    | succ n => exact ih n

end Born

/-! ## The ground -/

/-- The visits of resolution, the openings of the frames so far, and the store. -/
structure Ground where
  visits : List Visit
  /-- The opening of the frame `i + 1` is at `i`: the globals were not opened. -/
  births : List Birth
  store : Store

namespace Ground

/-- The second ground is the first one at a later time. -/
structure Grows (g g' : Ground) : Prop where
  visits : g'.visits = g.visits
  births : g.births <+: g'.births
  binds : ∀ f name, g.store.binds f name = true → g'.store.binds f name = true

theorem Grows.refl (g : Ground) : g.Grows g := ⟨rfl, List.prefix_refl _, fun _ _ h => h⟩

theorem Grows.trans {g₁ g₂ g₃ : Ground} (h : g₁.Grows g₂) (h' : g₂.Grows g₃) : g₁.Grows g₃ :=
  ⟨h'.visits.trans h.visits, h.births.trans h'.births,
    fun f name hb => h'.binds f name (h.binds f name hb)⟩

/-- The ground after a name was bound. -/
def bind (g : Ground) (f : FrameId) (name : String) (b : Binding) : Ground :=
  { g with store := g.store.bind f name b }

/-- The ground after a frame was made. -/
def push (g : Ground) (b : Birth) : Ground :=
  { g with births := g.births ++ [b], store := g.store.push }

theorem grows_bind (g : Ground) (f : FrameId) (name : String) (b : Binding) :
    g.Grows (g.bind f name b) :=
  ⟨rfl, List.prefix_refl _, fun _ _ h => Store.binds_bind_of_binds h f name b⟩

theorem grows_push (g : Ground) (b : Birth) : g.Grows (g.push b) := by
  refine ⟨rfl, List.prefix_append _ _, ?_⟩
  intro f name h
  rw [push, Store.binds, Store.frame_push]
  exact h

/-! ## Environments -/

/-- The frames of the environment belong to the levels, and bind the names that are ready. -/
inductive Fits (g : Ground) : Env → Levels → Prop
  | globals : Fits g globals []
  | frame {i : Nat} {outer : Env} {level : Level} {levels : Levels} :
    g.births[i]? = some ⟨level.opener, outer⟩ →
    (∀ name, level.scope.ready? name = some true → g.store.binds (i + 1) name = true) →
    Fits g outer levels → Fits g (.child (i + 1) outer) (level :: levels)

theorem Grows.getElem? {g g' : Ground} (h : g.Grows g') {i : Nat} {b : Birth}
    (hb : g.births[i]? = some b) : g'.births[i]? = some b := by
  obtain ⟨rest, hrest⟩ := h.births
  obtain ⟨hlt, -⟩ := List.getElem?_eq_some_iff.mp hb
  rw [← hrest, List.getElem?_append_left hlt]
  exact hb

theorem Fits.mono {g g' : Ground} (h : g.Grows g') {env : Env} (hf : g.Fits env levels) :
    g'.Fits env levels := by
  induction hf with
  | globals => exact .globals
  | frame hb hn _ ih => exact .frame (h.getElem? hb) (fun name hr => h.binds _ _ (hn name hr)) ih

theorem Fits.born {env : Env} (h : g.Fits env levels) :
    Born g.births env := by
  induction h with
  | globals => exact .globals
  | frame hb _ _ ih => exact .child hb ih

/-- A frame lies on one chain only. -/
theorem Fits.unique {env env' : Env} {levels levels' : Levels} (h : g.Fits env levels)
    (h' : g.Fits env' levels') (he : env.frame = env'.frame) :
    env = env' :=
  Born.apart g.births h.born h'.born he

theorem Fits.declare {env : Env} (h : g.Fits env levels) (name : String) :
    g.Fits env (levels.declare name) := by
  cases h with
  | globals => exact .globals
  | frame hb hn ho => exact .frame hb (fun n hr => hn n (Scope.ready_of_declare hr)) ho

/-- A name may be made ready once it is bound. -/
theorem Fits.define {env : Env} (h : g.Fits env levels) {name : String}
    (hb : g.store.binds env.frame name = true) :
    g.Fits env (levels.define name) := by
  cases h with
  | globals => exact .globals
  | frame hbirth hn ho =>
    refine .frame hbirth ?_ ho
    intro other hr
    rcases Scope.ready_of_define hr with rfl | hr
    · exact hb
    · exact hn other hr

/-! ## Values and the store -/

/-- A function is valid if its environment fits the levels at which its body is scoped. -/
def Valid (g : Ground) : Value → Prop
  | .closure d env => ∃ levels, g.Fits env levels ∧ d.Scoped g.visits levels
  | _ => True

theorem Valid.mono {g g' : Ground} (h : g.Grows g') {v : Value} (hv : g.Valid v) : g'.Valid v := by
  cases v with
  | closure d env =>
    obtain ⟨levels, hf, hd⟩ := hv
    exact ⟨levels, hf.mono h, by rw [h.visits]; exact hd⟩
  | _ => trivial

/-- Every binding is valid when it is read along the chain of its frame. -/
structure Sound (g : Ground) : Prop where
  next : g.store.next = g.births.length + 1
  binding : ∀ f name b, (g.store.frame f).get? name = some b →
    ∃ env : Env, env.frame = f ∧ g.Valid (b.load env)

theorem Fits.frame_lt (hg : g.Sound) {env : Env} (h : g.Fits env levels) :
    env.frame < g.store.next := by
  rw [hg.next]
  cases h with
  | globals => exact Nat.succ_pos _
  | frame hb _ _ =>
    obtain ⟨hlt, -⟩ := List.getElem?_eq_some_iff.mp hb
    exact Nat.succ_lt_succ hlt

/-- What is read along a chain that fits is valid. -/
theorem Sound.read? (hg : g.Sound) {env : Env} (h : g.Fits env levels) {name : String} {v : Value}
    (hv : g.store.read? env name = some v) :
    g.Valid v := by
  obtain ⟨b, hb, rfl⟩ := Option.map_eq_some_iff.mp hv
  obtain ⟨env', he, hvalid⟩ := hg.binding env.frame name b hb
  cases b with
  | value v => exact hvalid
  | function d =>
    have hfits := hvalid
    obtain ⟨levels', hf', -⟩ := hfits
    rw [h.unique hf' he.symm]
    exact hvalid

/-- The chain some frames out fits the levels from there on. -/
theorem Fits.ancestor {env : Env} (h : g.Fits env levels) :
    ∀ {d : Nat}, d < levels.length → g.Fits (env.ancestor d) (levels.drop d) := by
  induction h with
  | globals => intro d hd; exact absurd hd (Nat.not_lt_zero d)
  | frame hb hn ho ih =>
    intro d hd
    cases d with
    | zero => exact .frame hb hn ho
    | succ d => exact ih (Nat.lt_of_succ_lt_succ hd)

theorem Sound.lookup? (hg : g.Sound) {name : String} {v : Value}
    (hv : g.store.lookup? globals name = some v) : g.Valid v := by
  obtain ⟨holder, hh, hr⟩ := Option.bind_eq_some_iff.mp hv
  rw [globals, Store.holder?] at hh
  split at hh
  · cases hh
    exact hg.read? .globals hr
  · cases hh

/-- Binding something valid keeps the ground sound. -/
theorem Sound.bind {g : Ground} (hg : g.Sound) {f : FrameId} (hf : f < g.store.next)
    {name : String} {b : Binding}
    (hb : ∃ env : Env, env.frame = f ∧ (g.bind f name b).Valid (b.load env)) :
    (g.bind f name b).Sound := by
  refine ⟨?_, ?_⟩
  · rw [Ground.bind, Store.next_bind]
    exact hg.next
  · intro f' name' b' hb'
    rw [Ground.bind, Store.get?_frame_bind hf] at hb'
    split at hb'
    · next hc =>
      cases hb'
      rw [hc.1]
      exact hb
    · obtain ⟨env, he, hv⟩ := hg.binding f' name' b' hb'
      exact ⟨env, he, hv.mono (g.grows_bind f name b)⟩

theorem Sound.bind_value (hg : g.Sound) {f : FrameId} (hf : f < g.store.next) {name : String}
    {v : Value} (hv : g.Valid v) : (g.bind f name (.value v)).Sound :=
  hg.bind hf ⟨.root f, rfl, hv.mono (g.grows_bind f name _)⟩

theorem Sound.push (hg : g.Sound) (b : Birth) : (g.push b).Sound := by
  refine ⟨?_, ?_⟩
  · rw [Ground.push, Store.next_push, hg.next, List.length_append]
    rfl
  · intro f name b' hb'
    rw [Ground.push, Store.frame_push] at hb'
    obtain ⟨env, he, hv⟩ := hg.binding f name b' hb'
    exact ⟨env, he, hv.mono (g.grows_push b)⟩

/-- The new frame fits the scope that was opened. -/
theorem Sound.fits_push (hg : g.Sound) {outer : Env} (h : g.Fits outer levels) (opener : Opener) :
    (g.push ⟨opener, outer⟩).Fits (.child g.store.next outer) (levels.enter opener) := by
  rw [hg.next]
  refine .frame ?_ ?_ (h.mono (g.grows_push _))
  · rw [Ground.push, List.getElem?_append_right (Nat.le_refl _), Nat.sub_self]
    rfl
  · intro name hr
    simp [Scope.ready?] at hr

/-! ## What is left to do -/

/-- An expression around the one being evaluated is scoped, and the values in it are valid. -/
def Fills (g : Ground) (levels : Levels) : Hole → Prop
  | .assign target => (⟨.write, target, levels⟩ : Visit) ∈ g.visits
  | .unary _ => True
  | .binaryLeft _ right | .logical _ right => right.Scoped g.visits levels
  | .binaryRight left _ => g.Valid left
  | .callee arguments _ => ∀ e ∈ arguments, e.Scoped g.visits levels
  | .argument callee done rest _ =>
    g.Valid callee ∧ (∀ v ∈ done, g.Valid v) ∧ ∀ e ∈ rest, e.Scoped g.visits levels

/-- The levels after the statement that waits for a value, whose parts are scoped. -/
def Leads (g : Ground) (levels : Levels) : Purpose → Levels → Prop
  | .discard, after | .print, after | .ret, after => after = levels
  | .define name, after => after = levels.define name.lexeme
  | .choose thenBranch elseBranch, after =>
    after = levels ∧ (thenBranch.declares = false ∧ thenBranch.Scoped g.visits levels) ∧
      ∀ s ∈ elseBranch, s.declares = false ∧ s.Scoped g.visits levels
  | .iterate condition body, after =>
    after = levels ∧ condition.Scoped g.visits levels ∧ body.declares = false ∧
      body.Scoped g.visits levels

/--
The tasks of a stack are scoped; the first two indices are the environment and the levels that they
go on with. A task that gives an environment back goes on with that one.
-/
inductive Stacks (g : Ground) : Env → Levels → List Task → Prop
  | nil {env : Env} : env = globals → Stacks g env [] []
  | sequence {env : Env} {levels : Levels} {rest : List Stmt} {stack : List Task} :
    Stmt.ScopedAll g.visits levels rest → Stacks g env (Stmt.afterLevelsAll levels rest) stack →
    Stacks g env levels (.sequence rest :: stack)
  | again {env : Env} {levels : Levels} {condition : Expr} {body : Stmt} {stack : List Task} :
    condition.Scoped g.visits levels → body.declares = false → body.Scoped g.visits levels →
    Stacks g env levels stack → Stacks g env levels (.again condition body :: stack)
  | leave {env outer : Env} {levels around : Levels} {stack : List Task} :
    g.Fits outer around → Stacks g outer around stack →
    Stacks g env levels (.leave outer :: stack)
  | back {env outer : Env} {levels around after : Levels} {caller : Context}
    {stack : List Task} :
    g.Fits outer around → (∀ hole ∈ caller.holes, g.Fills around hole) →
    g.Leads around caller.purpose after → Stacks g outer after stack →
    Stacks g env levels (.back outer caller :: stack)

/-- What waits for the value of an expression is scoped. -/
def Awaits (g : Ground) (env : Env) (levels : Levels) (context : Context)
    (stack : List Task) : Prop :=
  (∀ hole ∈ context.holes, g.Fills levels hole) ∧
    ∃ after, g.Leads levels context.purpose after ∧ g.Stacks env after stack

theorem Fills.mono {g g' : Ground} (h : g.Grows g') {hole : Hole} (hh : g.Fills levels hole) :
    g'.Fills levels hole := by
  cases hole with
  | unary operator => trivial
  | binaryRight left operator => exact Valid.mono h hh
  | argument callee done rest paren =>
    obtain ⟨h1, h2, h3⟩ := hh
    exact ⟨h1.mono h, fun v hv => (h2 v hv).mono h, by rw [h.visits]; exact h3⟩
  | _ => simpa only [Fills, h.visits] using hh

theorem Leads.mono {g g' : Ground} (h : g.Grows g') {levels after : Levels} {purpose : Purpose}
    (hp : g.Leads levels purpose after) : g'.Leads levels purpose after := by
  unfold Leads at hp ⊢
  rw [h.visits]
  exact hp

theorem Stacks.mono {g g' : Ground} (h : g.Grows g') {env : Env} {stack : List Task}
    (hs : g.Stacks env levels stack) : g'.Stacks env levels stack := by
  induction hs with
  | nil he => exact .nil he
  | sequence hr _ ih => exact .sequence (by rw [h.visits]; exact hr) ih
  | again hc hd hb _ ih =>
    exact .again (by rw [h.visits]; exact hc) hd (by rw [h.visits]; exact hb) ih
  | leave hf _ ih => exact .leave (hf.mono h) ih
  | back hf hh hp _ ih =>
    exact .back (hf.mono h) (fun hole hm => (hh hole hm).mono h) (hp.mono h) ih

theorem Awaits.mono {g g' : Ground} (h : g.Grows g') {env : Env} {context : Context}
    {stack : List Task} (ha : g.Awaits env levels context stack) :
    g'.Awaits env levels context stack := by
  obtain ⟨hh, after, hp, hs⟩ := ha
  exact ⟨fun hole hm => (hh hole hm).mono h, after, hp.mono h, hs.mono h⟩

theorem Awaits.push {env : Env} {context : Context} {stack : List Task}
    (ha : g.Awaits env levels context stack) {hole : Hole} (hh : g.Fills levels hole) :
    g.Awaits env levels (context.push hole) stack := by
  refine ⟨?_, ha.2⟩
  intro hole' hm
  rcases List.mem_cons.mp hm with rfl | hm
  · exact hh
  · exact ha.1 hole' hm

end Ground

end Machine

end Nya
