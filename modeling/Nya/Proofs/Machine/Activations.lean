import Nya.Proofs.Machine.Moves
import Nya.Proofs.Machine.Preserve
import Nya.Proofs.Scope.Pending

/-!
# Activations

A frame is made for the body of a block or of a function, and that body is executed once in it, from
its first statement to its last. So while a statement is executed, its frame binds at most the
parameters and the names that the statements before it declare; what comes later, the statement's
own name included, is not bound yet.

The frames that are suspended, because what is executed in them has entered a block or a call, are
older than the current one. Nothing is declared in them in the meantime.

* `Activated` for a frame with the statements that are left
* `Config.Tracked`, and `Config.Tracked.step` for a step
-/

namespace Nya.Machine

variable {stack : List Task}

/-! ## Frames in use -/

/-- These statements of the opener are left; the frame binds what comes before them at most. -/
def Activated (births : List Birth) (store : Store) (f : FrameId) (rest : List Stmt) : Prop :=
  ∃ i b before, f = i + 1 ∧ births[i]? = some b ∧ b.opener.body = before ++ rest ∧
    ∀ name, store.binds f name = true →
      name ∈ b.opener.params ++ before.filterMap Stmt.declared?

/-- The first task leaves the current frame. -/
def leavesFrame : List Task → Bool
  | .leave _ :: _ | .back _ _ :: _ => true
  | _ => false

/--
The frames in use, where the statement in focus declares the given name in the current frame. If it
declares one, it is a statement of the body, and the frame binds only what comes before it.
-/
def Tracked (births : List Birth) (store : Store) (declared : Option String) (env : Env) :
    List Task → Prop
  | [] => True
  | .sequence rest :: stack =>
    (∀ name, declared = some name →
      ∃ s, s.declared? = some name ∧ Activated births store env.frame (s :: rest)) ∧
      Activated births store env.frame rest ∧ leavesFrame stack = true ∧
      Tracked births store none env stack
  | .again _ _ :: stack => declared = none ∧ Tracked births store none env stack
  | .leave outer :: stack =>
    declared = none ∧ outer.frame < env.frame ∧ Tracked births store none outer stack
  | .back outer caller :: stack =>
    declared = none ∧ outer.frame < env.frame ∧
      Tracked births store caller.purpose.declared? outer stack

/-- The statements to be executed next are those that are left in the current frame. -/
def Focus.Tracked (births : List Birth) (w : World) (stack : List Task) : Focus → Prop
  | .execAll ss => Activated births w.store w.env.frame ss ∧ leavesFrame stack = true
  | _ => True

/-- The frames in use, with the statements that are left in them. -/
structure Config.Tracked (births : List Birth) (c : Config) : Prop where
  focus : c.focus.Tracked births c.world c.stack
  stack : Machine.Tracked births c.world.store c.focus.declared? c.world.env c.stack

variable {births births' : List Birth} {store store' : Store} {natives : Array Native}

/-- What is activated stays so, as long as nothing is bound in the frame. -/
theorem Activated.mono {f : FrameId} {rest : List Stmt} (h : Activated births store f rest)
    (hbirths : births <+: births')
    (hbinds : ∀ name, store'.binds f name = true → store.binds f name = true) :
    Activated births' store' f rest := by
  obtain ⟨i, b, before, hf, hb, hbody, hnames⟩ := h
  obtain ⟨more, rfl⟩ := hbirths
  obtain ⟨hlt, -⟩ := List.getElem?_eq_some_iff.mp hb
  refine ⟨i, b, before, hf, ?_, hbody, fun name hname => hnames name (hbinds name hname)⟩
  rw [List.getElem?_append_left hlt]
  exact hb

/-- A statement that is over is one of those before. -/
theorem Activated.tail {f : FrameId} {s : Stmt} {rest : List Stmt}
    (h : Activated births store f (s :: rest)) : Activated births store f rest := by
  obtain ⟨i, b, before, hf, hb, hbody, hnames⟩ := h
  refine ⟨i, b, before ++ [s], hf, hb, by rw [hbody, List.append_assoc]; rfl, ?_⟩
  intro name hname
  rw [List.filterMap_append, ← List.append_assoc]
  exact List.mem_append_left _ (hnames name hname)

/-- A statement may bind its name when it is over. -/
theorem Activated.bind {f : FrameId} {s : Stmt} {rest : List Stmt} {name : String}
    (h : Activated births store f (s :: rest)) (hs : s.declared? = some name) (b : Binding) :
    Activated births (store.bind f name b) f rest := by
  obtain ⟨i, birth, before, hf, hb, hbody, hnames⟩ := h
  refine ⟨i, birth, before ++ [s], hf, hb, by rw [hbody, List.append_assoc]; rfl, ?_⟩
  intro other hother
  rw [List.filterMap_append, ← List.append_assoc, List.mem_append]
  by_cases ho : other = name
  · subst ho
    exact .inr (List.mem_filterMap.mpr ⟨s, List.mem_singleton.mpr rfl, hs⟩)
  · refine .inl (hnames other ?_)
    rwa [Store.binds_bind_of_ne ho] at hother

/-- The frames in use stay as they are, as long as nothing is bound in one that is not newer. -/
theorem Tracked.mono {declared : Option String} {env : Env}
    (h : Tracked births store declared env stack) (hbirths : births <+: births')
    (hbinds : ∀ f ≤ env.frame, ∀ name, store'.binds f name = true → store.binds f name = true) :
    Tracked births' store' declared env stack := by
  induction stack generalizing declared env with
  | nil => trivial
  | cons task stack ih =>
    have hcurrent := hbinds env.frame (Nat.le_refl _)
    cases task with
    | sequence rest =>
      obtain ⟨hdeclared, hrest, hleaves, hstack⟩ := h
      refine ⟨?_, hrest.mono hbirths hcurrent, hleaves, ih hstack hbinds⟩
      intro name hname
      obtain ⟨s, hs, hactivated⟩ := hdeclared name hname
      exact ⟨s, hs, hactivated.mono hbirths hcurrent⟩
    | again condition body => exact ⟨h.1, ih h.2 hbinds⟩
    | leave outer =>
      exact ⟨h.1, h.2.1, ih h.2.2 fun f hf => hbinds f (Nat.le_trans hf (Nat.le_of_lt h.2.1))⟩
    | back outer caller =>
      exact ⟨h.1, h.2.1, ih h.2.2 fun f hf => hbinds f (Nat.le_trans hf (Nat.le_of_lt h.2.1))⟩

/-- A statement that ends may as well declare nothing. -/
theorem Tracked.weaken {declared : Option String} {env : Env}
    (h : Tracked births store declared env stack) : Tracked births store none env stack := by
  cases stack with
  | nil => trivial
  | cons task stack =>
    cases task with
    | sequence rest => exact ⟨fun name hname => (Option.some_ne_none name hname.symm).elim, h.2⟩
    | again condition body => exact ⟨rfl, h.2⟩
    | leave outer => exact ⟨rfl, h.2⟩
    | back outer caller => exact ⟨rfl, h.2⟩

/-- Where the frame is left next, what is declared in it concerns no other. -/
theorem Tracked.bind_of_leavesFrame {env : Env} (h : Tracked births store none env stack)
    (hleaves : leavesFrame stack = true) (name : String) (b : Binding) :
    Tracked births (store.bind env.frame name b) none env stack := by
  have hbinds : ∀ outer : Env, outer.frame < env.frame → ∀ f ≤ outer.frame, ∀ other,
      (store.bind env.frame name b).binds f other = true → store.binds f other = true := by
    intro outer hlt f hf other hother
    rwa [Store.binds, Store.frame_bind_of_ne (Nat.ne_of_lt (Nat.lt_of_le_of_lt hf hlt))] at hother
  cases stack with
  | nil => cases hleaves
  | cons task stack =>
    cases task with
    | leave outer => exact ⟨h.1, h.2.1, h.2.2.mono (List.prefix_refl _) (hbinds outer h.2.1)⟩
    | back outer caller =>
      exact ⟨h.1, h.2.1, h.2.2.mono (List.prefix_refl _) (hbinds outer h.2.1)⟩
    | sequence rest => cases hleaves
    | again condition body => cases hleaves

/-- The statement in focus declares its name. -/
theorem Tracked.declare {env : Env} {name : String} (h : Tracked births store (some name) env stack)
    (b : Binding) :
    Tracked births (store.bind env.frame name b) none env stack := by
  cases stack with
  | nil => trivial
  | cons task stack =>
    cases task with
    | sequence rest =>
      obtain ⟨hdeclared, -, hleaves, hstack⟩ := h
      obtain ⟨s, hs, hactivated⟩ := hdeclared name rfl
      exact ⟨fun other hother => (Option.some_ne_none other hother.symm).elim,
        hactivated.bind hs b, hleaves, hstack.bind_of_leavesFrame hleaves name b⟩
    | again condition body => cases h.1
    | leave outer => cases h.1
    | back outer caller => cases h.1

/-! ## Steps -/

variable {vs : List Visit} {c c' : Config}

theorem Config.Tracked.grow (h : c.Tracked births) (more : List Birth) :
    c.Tracked (births ++ more) := by
  obtain ⟨focus, stack, w⟩ := c
  have hprefix := List.prefix_append births more
  refine ⟨?_, h.stack.mono hprefix fun _ _ _ hname => hname⟩
  cases focus with
  | execAll ss => exact ⟨h.focus.1.mono hprefix fun _ hname => hname, h.focus.2⟩
  | _ => trivial

theorem Focus.tracked_of_context? {f : Focus} {context : Context} (hf : f.context? = some context)
    (w : World) (stack : List Task) : f.Tracked births w stack := by
  cases f with
  | execAll ss => cases hf
  | _ => trivial

theorem Focus.tracked_of_exits {f : Focus} (hf : f.exits = true) (w : World) (stack : List Task) :
    f.Tracked births w stack ∧ f.declared? = none := by
  cases f with
  | finish flow => exact ⟨trivial, rfl⟩
  | raise e => exact ⟨trivial, rfl⟩
  | _ => cases hf

/-- Where an expression is evaluated, the current frame exists. -/
theorem Config.Sound.frame_lt {f : Focus} {context : Context} {w : World}
    (h : Config.Sound vs births ⟨f, stack, w⟩) (hf : f.context? = some context) :
    w.env.frame < w.store.next := by
  obtain ⟨hground, hfocused⟩ := h
  cases f with
  | eval e context' =>
    obtain ⟨levels, hfits, -⟩ := hfocused
    exact hfits.frame_lt hground
  | give v context' =>
    obtain ⟨-, levels, hfits, -⟩ := hfocused
    exact hfits.frame_lt hground
  | _ => cases hf

/-- In a frame that was just made, the whole body is left. -/
theorem activated_new {opener : Opener} {outer : Env} {f : FrameId} (hf : f = births.length + 1)
    (hnames : ∀ name, store.binds f name = true → name ∈ opener.params) :
    Activated (births ++ [⟨opener, outer⟩]) store f opener.body := by
  refine ⟨births.length, ⟨opener, outer⟩, [], hf, by simp, rfl, ?_⟩
  intro name hname
  rw [List.filterMap_nil, List.append_nil]
  exact hnames name hname

theorem World.binds_enter (w : World) (outer : Env) (name : String) :
    (w.enter outer).store.binds (w.enter outer).env.frame name = false := by
  have hframe : (w.enter outer).store.frame (w.enter outer).env.frame = [] :=
    (Store.frame_push _ _).trans (Store.frame_of_le (Nat.le_refl _))
  rw [Store.binds, hframe]
  rfl

theorem activated_enter {w : World} (hnext : w.store.next = births.length + 1) (body : List Stmt)
    (outer : Env) : Activated (births ++ [⟨.block body, outer⟩]) (w.enter outer).store
      (w.enter outer).env.frame body := by
  refine @activated_new _ _ (.block body) _ _ hnext ?_
  intro name hname
  rw [World.binds_enter] at hname
  cases hname

theorem activated_call {w : World} (hnext : w.store.next = births.length + 1) (d : Declaration)
    (env : Env) (args : List Value) : Activated (births ++ [⟨.function d, env⟩])
      ((w.enter env).bindParams d.params args).store
      ((w.enter env).bindParams d.params args).env.frame d.body := by
  rw [World.bindParams_env]
  refine @activated_new _ _ (.function d) _ _ hnext ?_
  intro name hname
  rcases World.binds_bindParams hname with hname | hname
  · rw [World.binds_enter] at hname
    cases hname
  · exact hname

/-- **Every step keeps track of the frames in use.** -/
theorem Config.Tracked.step (h : c.Tracked births) (hsound : c.Sound vs births)
    (hstep : Machine.step natives c = .config c') : c'.Tracked (births ++ c.birth?.toList) := by
  obtain ⟨hfocus, hstack⟩ := h
  cases move_of_step hstep with
  | think hf hf' hpurpose hrefs hstore henv =>
    apply Config.Tracked.grow
    refine ⟨Focus.tracked_of_context? hf' _ _, ?_⟩
    rw [Focus.declared?_of_context? hf', hpurpose, ← Focus.declared?_of_context? hf, hstore, henv]
    exact hstack
  | fault hf hstore henv =>
    apply Config.Tracked.grow
    refine ⟨trivial, ?_⟩
    rw [hstore, henv]
    exact hstack.weaken
  | assign hholder =>
    apply Config.Tracked.grow
    refine ⟨trivial, hstack.mono (List.prefix_refl _) ?_⟩
    -- An assignment binds what is bound already, wherever its frame is.
    intro f _ name hname
    rwa [World.overwrite, Store.define,
      Store.binds_bind_eq (World.binds_of_holder? hholder)] at hname
  | @call f context caller d env args stack w hf hpurpose hrefs hbirth =>
    have hnext : w.store.next = births.length + 1 := hsound.ground.next
    have hlt : w.env.frame < w.store.next := hsound.frame_lt hf
    rw [hbirth]
    refine ⟨⟨@activated_call _ { w with calls := w.calls + 1 } hnext d env args, rfl⟩, rfl, ?_, ?_⟩
    · rw [World.bindParams_env]
      exact hlt
    · -- The parameters are bound in the new frame, which is newer than all that are suspended.
      rw [hpurpose, ← Focus.declared?_of_context? hf]
      refine hstack.mono (List.prefix_append _ _) ?_
      intro f' hle name hname
      have hne : f' ≠ ({ w with calls := w.calls + 1 }.enter env).env.frame :=
        Nat.ne_of_lt (Nat.lt_of_le_of_lt hle hlt)
      rw [Store.binds, World.frame_bindParams_of_ne _ _ hne, World.enter, Store.frame_push] at hname
      exact hname
  | @start s e purpose stack w hs =>
    have hdeclared : Machine.Tracked births w.store s.declared? w.env stack := hstack
    rw [← declared?_of_start? hs] at hdeclared
    apply Config.Tracked.grow
    exact ⟨trivial, hdeclared⟩
  | @choose v thenBranch s elseBranch stack w hs =>
    obtain ⟨-, levels, -, -, after, ⟨-, hthen, helse⟩, -⟩ := hsound.focused
    have hdeclares : s.declares = false := by
      rcases hs with rfl | hs
      · exact hthen.1
      · exact (helse s hs).1
    have hdeclared : Machine.Tracked births w.store none w.env stack := hstack
    rw [← Stmt.declared?_of_declares hdeclares] at hdeclared
    apply Config.Tracked.grow
    exact ⟨trivial, hdeclared⟩
  | @iterate v condition body stack w =>
    obtain ⟨-, levels, -, -, after, ⟨-, -, hdeclares, -⟩, -⟩ := hsound.focused
    apply Config.Tracked.grow
    exact ⟨trivial, Stmt.declared?_of_declares hdeclares, hstack⟩
  | @block body stack w =>
    obtain ⟨levels, hfits, -⟩ := hsound.focused
    refine ⟨⟨activated_enter hsound.ground.next body w.env, rfl⟩, rfl,
      hfits.frame_lt hsound.ground, ?_⟩
    refine hstack.mono (List.prefix_append _ _) ?_
    intro f _ name hname
    rwa [World.enter, Store.binds, Store.frame_push] at hname
  | @next s ss stack w =>
    obtain ⟨hactivated, hleaves⟩ := hfocus
    apply Config.Tracked.grow
    refine ⟨trivial, ?_, hactivated.tail, hleaves, hstack⟩
    intro name hname
    exact ⟨s, hname, hactivated⟩
  | @declare f name b stack w hname =>
    have hdeclared : Machine.Tracked births w.store f.declared? w.env stack := hstack
    rw [hname] at hdeclared
    apply Config.Tracked.grow
    exact ⟨trivial, hdeclared.declare b⟩
  | finish hname hexits hstore henv =>
    apply Config.Tracked.grow
    refine ⟨trivial, ?_⟩
    rw [hstore, henv]
    exact hstack.weaken
  | follow =>
    obtain ⟨-, hactivated, hleaves, hrest⟩ := hstack
    apply Config.Tracked.grow
    exact ⟨⟨hactivated, hleaves⟩, hrest⟩
  | again =>
    apply Config.Tracked.grow
    exact ⟨trivial, hstack.2⟩
  | @drop f task stack w hexits htask =>
    obtain ⟨htracked, hdeclared⟩ := Focus.tracked_of_exits hexits w stack
    apply Config.Tracked.grow
    refine ⟨htracked, ?_⟩
    rw [hdeclared]
    rcases htask with ⟨rest, rfl⟩ | ⟨condition, body, rfl⟩
    · exact hstack.2.2.2
    · exact hstack.2
  | @leave f env stack w hexits =>
    obtain ⟨htracked, hdeclared⟩ := Focus.tracked_of_exits hexits (w.leave env) stack
    apply Config.Tracked.grow
    refine ⟨htracked, ?_⟩
    rw [hdeclared]
    exact hstack.2.2
  | back =>
    apply Config.Tracked.grow
    exact ⟨trivial, hstack.2.2⟩
  | unwind =>
    apply Config.Tracked.grow
    exact ⟨trivial, hstack.2.2.weaken⟩

end Nya.Machine
