import Nya.Proofs.Env.Frames
import Nya.Proofs.Machine.Balance
import Nya.Proofs.Machine.Moves

/-!
# The frame of the globals

The run of a statement that stands outside of all scopes. As long as the frame of the globals is the
current one, what is in focus is that statement or, if it declares nothing, a branch or a round of
it; all else is executed in frames of its own. So only the end of that very statement can declare a
global, and what else happens to the globals is that some are assigned to.

* `Config.Belongs` for the configurations of such a run, kept by every step
* `Config.Alters`, `Config.Belongs.alters` for what a step does to the globals
-/

namespace Nya

/-- The statement declares nothing, nor does any branch or loop in it by itself. -/
def Stmt.Inert (s : Stmt) : Prop := s.declares = false ∧ s.Regular

theorem Stmt.Inert.declared? {s : Stmt} (h : s.Inert) : s.declared? = none :=
  Stmt.declared?_of_declares h.1

namespace Machine

/-! ## Runs of one statement -/

/-- The statement that waits for a value declares the given name, and its parts are inert. -/
def Purpose.Belongs (declared : Option String) (purpose : Purpose) : Prop :=
  purpose.declared? = declared ∧
    match purpose with
    | .choose thenBranch elseBranch => thenBranch.Inert ∧ ∀ s ∈ elseBranch, s.Inert
    | .iterate _ body => body.Inert
    | _ => True

/-- What may be in focus at the frame of the globals. -/
def Focus.Belongs (declared : Option String) : Focus → Prop
  | .eval _ context | .give _ context => context.purpose.Belongs declared
  | .exec s => s.declared? = declared ∧ s.Regular
  | .execAll _ => False
  | .finish _ | .raise _ => True

/--
What may be left to do in an environment. Sequences are only executed in frames of their own, and
what a statement that declares a name waits for at the frame of the globals are calls.
-/
def Belongs (declared : Option String) (env : Env) : List Task → Prop
  | [] => env.frame = globals.frame
  | .sequence _ :: stack => env.frame ≠ globals.frame ∧ Belongs declared env stack
  | .again _ body :: stack =>
    (env.frame = globals.frame → declared = none ∧ body.Inert) ∧ Belongs declared env stack
  | .leave outer :: stack =>
    env.frame ≠ globals.frame ∧ (outer.frame = globals.frame → declared = none) ∧
      Belongs declared outer stack
  | .back outer caller :: stack =>
    env.frame ≠ globals.frame ∧
      (outer.frame = globals.frame → caller.purpose.Belongs declared) ∧
      Belongs declared outer stack

/-- The configuration belongs to the run of a statement that declares the given name, if any. -/
structure Config.Belongs (declared : Option String) (c : Config) : Prop where
  next : globals.frame < c.world.store.next
  focus : c.world.env.frame = globals.frame → c.focus.Belongs declared
  stack : Machine.Belongs declared c.world.env c.stack

/-- The statement being run has been executed. -/
def Config.ended : Config → Bool
  | ⟨.finish _, [], _⟩ => true
  | _ => false

variable {declared : Option String} {natives : Array Native}

theorem Focus.Belongs.purpose {f : Focus} (h : f.Belongs declared) {context : Context}
    (hf : f.context? = some context) : context.purpose.Belongs declared := by
  cases f with
  | eval e context' => cases hf; exact h
  | give v context' => cases hf; exact h
  | _ => cases hf

theorem Focus.belongs_of_purpose {f : Focus} {context : Context} (hf : f.context? = some context)
    (h : context.purpose.Belongs declared) : f.Belongs declared := by
  cases f with
  | eval e context' => cases hf; exact h
  | give v context' => cases hf; exact h
  | _ => cases hf

/-- At the frame of the globals, what is in focus declares what the whole statement does. -/
theorem Focus.Belongs.declared? {f : Focus} (h : f.Belongs declared) (hexits : f.exits = false) :
    f.declared? = declared := by
  cases f with
  | eval e context => exact h.1
  | give v context => exact h.1
  | exec s => exact h.1
  | execAll ss => exact h.elim
  | finish flow => cases hexits
  | raise e => cases hexits

/-- What a statement starts with belongs to it. -/
theorem belongs_of_start? {s : Stmt} {e : Expr} {purpose : Purpose}
    (h : start? s = some (e, purpose)) (hs : s.Regular) : purpose.Belongs s.declared? := by
  cases s with
  | expression e' => cases h; exact ⟨rfl, trivial⟩
  | print e' => cases h; exact ⟨rfl, trivial⟩
  | var name init =>
    cases init with
    | none => cases h
    | some e' => cases h; exact ⟨rfl, trivial⟩
  | block body => cases h
  | branch condition thenBranch elseBranch =>
    cases h
    refine ⟨rfl, ?_⟩
    cases elseBranch with
    | none =>
      rw [Stmt.Regular] at hs
      exact ⟨hs, fun s hm => by cases hm⟩
    | some s =>
      rw [Stmt.Regular] at hs
      exact ⟨hs.1, fun s' hm => by cases hm; exact hs.2⟩
  | loop condition body =>
    cases h
    rw [Stmt.Regular] at hs
    exact ⟨rfl, hs⟩
  | function id name params body => cases h
  | ret keyword value =>
    cases value with
    | none => cases h
    | some e' => cases h; exact ⟨rfl, trivial⟩

/-! ## Frames that are made -/

theorem World.enter_frame_ne {w : World} (h : globals.frame < w.store.next) (outer : Env) :
    (w.enter outer).env.frame ≠ globals.frame := Nat.ne_of_gt h

/-! ## Steps -/

/-- **Every step keeps to the statement that is run.** -/
theorem Config.Belongs.step {c c' : Config} (h : c.Belongs declared)
    (hstep : Machine.step natives c = .config c') : c'.Belongs declared := by
  obtain ⟨hnext, hfocus, hstack⟩ := h
  cases move_of_step hstep with
  | think hf hf' hpurpose hrefs hstore henv =>
    refine ⟨hstore ▸ hnext, ?_, henv ▸ hstack⟩
    intro hframe
    refine Focus.belongs_of_purpose hf' ?_
    rw [hpurpose]
    exact (hfocus (henv ▸ hframe)).purpose hf
  | fault hf hstore henv => exact ⟨hstore ▸ hnext, fun _ => trivial, henv ▸ hstack⟩
  | assign hholder =>
    refine ⟨?_, hfocus, hstack⟩
    rw [World.overwrite, Store.define, Store.next_bind]
    exact hnext
  | @call f context caller d env args stack w hf hpurpose hrefs hbirth =>
    have hne : (({ w with calls := w.calls + 1 }.enter env).bindParams d.params args).env.frame ≠
        globals.frame := by
      rw [World.bindParams_env]
      exact World.enter_frame_ne hnext env
    refine ⟨?_, fun hframe => absurd hframe hne, hne, ?_, hstack⟩
    · rw [World.bindParams_next]
      exact Nat.lt_of_lt_of_eq (Nat.lt_succ_of_lt hnext) (Store.next_push w.store).symm
    · intro hframe
      rw [hpurpose]
      exact (hfocus hframe).purpose hf
  | start hs =>
    refine ⟨hnext, ?_, hstack⟩
    intro hframe
    obtain ⟨hdeclared, hregular⟩ := hfocus hframe
    exact hdeclared ▸ belongs_of_start? hs hregular
  | @choose v thenBranch s elseBranch stack w hs =>
    refine ⟨hnext, ?_, hstack⟩
    intro hframe
    obtain ⟨hdeclared, hthen, helse⟩ := hfocus hframe
    have hinert : s.Inert := by
      rcases hs with rfl | hs
      · exact hthen
      · exact helse s hs
    exact ⟨hinert.declared?.trans hdeclared, hinert.2⟩
  | iterate =>
    refine ⟨hnext, ?_, ?_, hstack⟩
    · intro hframe
      obtain ⟨hdeclared, hbody⟩ := hfocus hframe
      exact ⟨hbody.declared?.trans hdeclared, hbody.2⟩
    · intro hframe
      obtain ⟨hdeclared, hbody⟩ := hfocus hframe
      exact ⟨hdeclared.symm, hbody⟩
  | @block body stack w =>
    have hne := World.enter_frame_ne hnext w.env
    refine ⟨?_, fun hframe => absurd hframe hne, hne, ?_, hstack⟩
    · exact Nat.lt_of_lt_of_eq (Nat.lt_succ_of_lt hnext) (Store.next_push w.store).symm
    · intro hframe
      exact (hfocus hframe).1.symm
  | next => exact ⟨hnext, fun hframe => (hfocus hframe).elim, hfocus, hstack⟩
  | declare hname =>
    refine ⟨?_, fun _ => trivial, hstack⟩
    rw [Store.next_bind]
    exact hnext
  | finish hname hexits hstore henv => exact ⟨hstore ▸ hnext, fun _ => trivial, henv ▸ hstack⟩
  | follow => exact ⟨hnext, hstack.1, hstack.2⟩
  | again =>
    refine ⟨hnext, ?_, hstack.2⟩
    intro hframe
    obtain ⟨rfl, hbody⟩ := hstack.1 hframe
    exact ⟨rfl, hbody⟩
  | drop hexits htask =>
    rcases htask with ⟨rest, rfl⟩ | ⟨condition, body, rfl⟩
    · exact ⟨hnext, hfocus, hstack.2⟩
    · exact ⟨hnext, hfocus, hstack.2⟩
  | @leave f env stack w hexits =>
    refine ⟨hnext, ?_, hstack.2.2⟩
    intro _
    cases f with
    | finish flow => trivial
    | raise e => trivial
    | _ => cases hexits
  | back => exact ⟨hnext, hstack.2.1, hstack.2.2⟩
  | unwind => exact ⟨hnext, fun _ => trivial, hstack.2.2⟩

/-- What a step does to the globals. -/
inductive Config.Alters (declared : Option String) (c c' : Config) : Prop
  /-- Nothing, and if the statement has ended now, it declares nothing. -/
  | keeps : c'.world.store.frame globals.frame = c.world.store.frame globals.frame →
    (c'.ended = true → declared = none) → c.Alters declared c'
  /-- The statement has ended and declares its name. -/
  | declares {name : String} {b : Binding} : declared = some name → c'.ended = true →
    c'.world.store = c.world.store.bind globals.frame name b → c.Alters declared c'
  /-- A variable is assigned to, a global or not. -/
  | assigns {v : Value} {target : Reference} {holes : List Hole} {purpose : Purpose}
    {holder : Env} : c.focus = .give v ⟨.assign target :: holes, purpose⟩ →
    c.world.holder? target = some holder → c'.ended = false →
    c'.world = c.world.overwrite holder target.name.lexeme v → c.Alters declared c'

/-- At the frame of the globals, a statement that declares a name is all that there is to run. -/
theorem Belongs.eq_nil {env : Env} {stack : List Task} {name : String}
    (h : Belongs (some name) env stack) (hframe : env.frame = globals.frame) : stack = [] := by
  cases stack with
  | nil => rfl
  | cons task rest =>
    cases task with
    | sequence ss => exact absurd hframe h.1
    | again condition body => cases (h.1 hframe).1
    | leave outer => exact absurd hframe h.1
    | back outer caller => exact absurd hframe h.1

theorem Config.ended_of_context? {f : Focus} {context : Context} (hf : f.context? = some context)
    (stack : List Task) (w : World) : Config.ended ⟨f, stack, w⟩ = false := by
  cases f with
  | finish flow => cases hf
  | _ => rfl

theorem Config.eq_nil_of_ended {f : Focus} {stack : List Task} {w : World}
    (h : Config.ended ⟨f, stack, w⟩ = true) : stack = [] := by
  cases f with
  | finish flow =>
    cases stack with
    | nil => rfl
    | cons task stack => cases h
  | _ => cases h

/-- A step that leaves the store as it is and does not end the statement. -/
theorem Config.alters_of_store_eq {c c' : Config} (hstore : c'.world.store = c.world.store)
    (hended : c'.ended = false) : c.Alters declared c' :=
  .keeps (by rw [hstore]) (fun h => absurd (hended.symm.trans h) Bool.false_ne_true)

/-- **All that a step does to the globals.** -/
theorem Config.Belongs.alters {c c' : Config} (h : c.Belongs declared)
    (hstep : Machine.step natives c = .config c') : c.Alters declared c' := by
  obtain ⟨hnext, hfocus, hstack⟩ := h
  cases move_of_step hstep with
  | think hf hf' hpurpose hrefs hstore henv =>
    exact alters_of_store_eq hstore (ended_of_context? hf' _ _)
  | fault hf hstore henv => exact alters_of_store_eq hstore rfl
  | assign hholder => exact .assigns rfl hholder rfl rfl
  | @call f context caller d env args stack w hf hpurpose hrefs hbirth =>
    have hne : globals.frame ≠ ({ w with calls := w.calls + 1 }.enter env).env.frame :=
      Nat.ne_of_lt hnext
    refine .keeps ?_ (fun h => by cases h)
    rw [World.frame_bindParams_of_ne _ _ hne]
    exact Store.frame_push _ _
  | start hs => exact alters_of_store_eq rfl rfl
  | choose hs => exact alters_of_store_eq rfl rfl
  | iterate => exact alters_of_store_eq rfl rfl
  | block => exact .keeps (Store.frame_push _ _) (fun h => by cases h)
  | next => exact alters_of_store_eq rfl rfl
  | @declare f name b stack w hname =>
    have hexits : f.exits = false := by
      cases f with
      | finish flow => cases hname
      | raise e => cases hname
      | _ => rfl
    -- In any other frame the name is a local one; here the statement itself has come to its end.
    by_cases hframe : w.env.frame = globals.frame
    · have hdeclared : declared = some name :=
        ((hfocus hframe).declared? hexits).symm.trans hname
      subst hdeclared
      have hnil : stack = [] := hstack.eq_nil hframe
      subst hnil
      exact .declares rfl rfl (by rw [hframe])
    · refine .keeps (Store.frame_bind_of_ne (Ne.symm hframe) _ _) ?_
      intro hended
      have hnil : stack = [] := eq_nil_of_ended hended
      subst hnil
      exact absurd hstack hframe
  | @finish f flow stack w w' hname hexits hstore henv =>
    refine .keeps (by rw [hstore]) ?_
    intro hended
    have hnil : stack = [] := eq_nil_of_ended hended
    subst hnil
    exact ((hfocus hstack).declared? hexits).symm.trans hname
  | follow => exact alters_of_store_eq rfl rfl
  | again => exact alters_of_store_eq rfl rfl
  | @drop f task stack w hexits htask =>
    refine .keeps rfl ?_
    intro hended
    have hnil : stack = [] := eq_nil_of_ended hended
    subst hnil
    -- What ends with the last task was a loop, since no sequence is left at the globals.
    rcases htask with ⟨rest, rfl⟩ | ⟨condition, body, rfl⟩
    · exact absurd hstack.2 hstack.1
    · exact (hstack.1 hstack.2).1
  | @leave f env stack w hexits =>
    refine .keeps rfl ?_
    intro hended
    have hnil : stack = [] := eq_nil_of_ended hended
    subst hnil
    exact hstack.2.1 hstack.2.2
  | back => exact alters_of_store_eq rfl rfl
  | unwind => exact alters_of_store_eq rfl rfl

/-! ## Names of globals -/

/-- A global is looked up in the frame of the globals and nowhere else. -/
theorem World.global?_eq (w : World) (name : String) :
    w.global? name = w.store.read? globals name := by
  unfold global? Store.lookup? globals Store.holder?
  cases hbinds : w.store.binds 0 name with
  | true => rfl
  | false =>
    rw [Store.binds, Option.isSome_eq_false_iff, Option.isNone_iff_eq_none] at hbinds
    simp [Store.read?, Env.frame, hbinds]

theorem World.isSome_global? (w : World) (name : String) :
    (w.global? name).isSome = w.store.binds globals.frame name := by
  rw [global?_eq, Store.read?, Option.isSome_map, Store.binds]

/-- The names of the globals after a step. -/
theorem Config.Alters.binds {c c' : Config} (h : c.Alters declared c')
    (hnext : globals.frame < c.world.store.next) (name : String) :
    c'.world.store.binds globals.frame name = true ↔
      c.world.store.binds globals.frame name = true ∨
        c'.ended = true ∧ declared = some name := by
  cases h with
  | keeps hframe hended =>
    rw [Store.binds, hframe]
    constructor
    · exact .inl
    · rintro (hbinds | ⟨h, hdeclared⟩)
      · exact hbinds
      · cases (hended h).symm.trans hdeclared
  | @declares name' b hdeclared hended hstore =>
    rw [hstore, Store.binds, Store.get?_frame_bind hnext, hdeclared]
    by_cases hname : name = name'
    · subst hname
      simp [hended]
    · rw [if_neg (fun h => hname h.2)]
      constructor
      · exact .inl
      · rintro (hbinds | ⟨-, h⟩)
        · exact hbinds
        · cases h
          exact absurd rfl hname
  | @assigns v target holes purpose holder hfocus hholder hended hworld =>
    rw [hworld, World.overwrite, Store.define, Store.binds_bind_eq (World.binds_of_holder? hholder),
      hended]
    simp

/-- A configuration that has ended takes no step. -/
theorem Config.ended_of_step {c c' : Config} (h : step natives c = .config c') :
    c.ended = false := by
  obtain ⟨focus, stack, w⟩ := c
  cases focus with
  | finish flow =>
    cases stack with
    | nil => cases h
    | cons task stack => rfl
  | _ => rfl

/-- The names of the globals in a configuration, by those at the start of the statement. -/
def Config.Named (declared : Option String) (names : String → Prop) (c : Config) : Prop :=
  ∀ name, c.world.store.binds globals.frame name = true ↔
    names name ∨ c.ended = true ∧ declared = some name

/-- **While a statement is run, the globals have the names that they had, and at its end that of
its declaration.** -/
theorem trace_named {names : String → Prop} {fuel : Nat} {start : Config}
    (hbelongs : start.Belongs declared) (hnamed : start.Named declared names) :
    ∀ c ∈ trace natives fuel start, c.Belongs declared ∧ c.Named declared names := by
  refine trace_induction ?_ fuel ⟨hbelongs, hnamed⟩
  rintro c c' hstep ⟨hbelongs, hnamed⟩
  refine ⟨hbelongs.step hstep, ?_⟩
  intro name
  rw [(hbelongs.alters hstep).binds hbelongs.next, hnamed name, Config.ended_of_step hstep]
  simp

/-- A run that ends does so in a configuration of its trace. -/
theorem exists_halt_of_run : ∀ {fuel : Nat} {c : Config} {result : Except RuntimeError Flow}
    {w : World}, run natives fuel c = some (result, w) →
      ∃ c' ∈ trace natives fuel c, step natives c' = .halt result w
  | 0, _, _, _, h => by cases h
  | fuel + 1, c, result, w, h => by
    rw [run_succ] at h
    rw [trace_succ]
    cases hstep : step natives c with
    | halt result' w' =>
      rw [hstep] at h
      cases h
      exact ⟨c, List.mem_cons_self, hstep⟩
    | config c' =>
      rw [hstep] at h
      obtain ⟨c₁, hmem, hhalt⟩ := exists_halt_of_run h
      exact ⟨c₁, List.mem_cons_of_mem _ hmem, hhalt⟩

/-- A run ends in its own world, with all done, and has ended unless there is a fault. -/
theorem Config.of_halt {c : Config} {result : Except RuntimeError Flow} {w : World}
    (h : step natives c = .halt result w) :
    c.world = w ∧ c.stack = [] ∧ c.ended = result.isOk := by
  obtain ⟨focus, stack, w'⟩ := c
  cases focus with
  | finish flow =>
    cases stack with
    | nil => cases h; exact ⟨rfl, rfl, rfl⟩
    | cons task stack => cases h
  | raise e =>
    cases stack with
    | nil => cases h; exact ⟨rfl, rfl, rfl⟩
    | cons task stack => cases h
  | execAll ss =>
    cases ss with
    | nil => cases h
    | cons s ss => cases h
  | _ => cases h

end Machine

end Nya
