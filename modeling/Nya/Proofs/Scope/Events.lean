import Nya.Scope.Resolve

/-!
# The order of a program

A program is read from its first declaration to its last one, and what matters for its scopes is a
list of events: scopes are opened and left, names are declared, variables are read and written.

At any moment the events before it, the latest first, are the *history*. From the history alone
follows which scopes are open, which names have been declared in each of them, and whether a
variable is being initialized. That is how the rules of scoping are stated here: nothing is kept
between two events but the history itself.

* `Stmt.events` for the events of a program
* `History.Binds` for the scope that a reference is bound in
* `History.fault?` for the one fault that an event may be
-/

namespace Nya

/-- What happens as a program is read. -/
inductive Event where
  /-- A scope is opened: that of a block, or that of a function body. -/
  | enter (isFunction : Bool)
  /-- The innermost scope is left. -/
  | leave
  /-- A variable, a function or a parameter is declared. -/
  | declare (name : Token)
  /-- A declaration is complete: a variable has its initial value. -/
  | complete (name : Token)
  | refer (access : Access) (target : Reference)
  | ret (keyword : Token)

/-- The reference that is made, if any. -/
def Event.reference? : Event → Option (Access × Reference)
  | refer access target => some (access, target)
  | _ => none

/-! ## Events of a tree -/

/-- The events of an expression. -/
def Expr.events (e : Expr) : List Event := e.references.map fun r => .refer r.1 r.2

/-- The events of an expression that may be missing. -/
def Expr.eventsOption : Option Expr → List Event
  | none => []
  | some e => e.events

/-- The declaration of a name that needs no initial value. -/
def Token.events (name : Token) : List Event := [.declare name, .complete name]

mutual

/-- The events of a statement, in the order of the source. -/
def Stmt.events : Stmt → List Event
  | .expression e | .print e => e.events
  | .var name init => .declare name :: (Expr.eventsOption init ++ [.complete name])
  | .block body => .enter false :: (Stmt.eventsAll body ++ [.leave])
  | .branch condition thenBranch none => condition.events ++ thenBranch.events
  | .branch condition thenBranch (some elseBranch) =>
    condition.events ++ thenBranch.events ++ elseBranch.events
  | .loop condition body => condition.events ++ body.events
  | .function _ name params body =>
    name.events ++ .enter true :: (params.flatMap Token.events ++ Stmt.eventsAll body ++ [.leave])
  | .ret keyword value => .ret keyword :: Expr.eventsOption value

/-- The events of statements, one after another. -/
def Stmt.eventsAll : List Stmt → List Event
  | [] => []
  | s :: ss => s.events ++ Stmt.eventsAll ss

end

/-- The events of a program. -/
def events (program : List Stmt) : List Event := Stmt.eventsAll program

/-! The references of a tree are among its events, in the same order. -/

theorem Expr.references_events (e : Expr) : e.events.filterMap Event.reference? = e.references := by
  rw [events, List.filterMap_map]
  exact List.filterMap_some

theorem Expr.references_eventsOption (e : Option Expr) :
    (Expr.eventsOption e).filterMap Event.reference? = Expr.referencesOption e := by
  cases e with
  | none => rfl
  | some e => exact e.references_events

theorem Token.references_events (params : List Token) :
    (params.flatMap Token.events).filterMap Event.reference? = [] := by
  induction params with
  | nil => rfl
  | cons param params ih => simpa [Token.events, List.filterMap_cons, Event.reference?] using ih

mutual

theorem Stmt.references_events : ∀ s : Stmt,
    s.events.filterMap Event.reference? = s.references
  | .expression e | .print e => e.references_events
  | .var name init => by
    simp [Stmt.events, Stmt.references, List.filterMap_cons, Event.reference?,
      Expr.references_eventsOption]
  | .block body => by
    simp [Stmt.events, Stmt.references, List.filterMap_cons, Event.reference?,
      Stmt.references_eventsAll body]
  | .branch c t none => by
    simp [Stmt.events, Stmt.references, Expr.references_events, Stmt.references_events t]
  | .branch c t (some e) => by
    simp [Stmt.events, Stmt.references, Expr.references_events, Stmt.references_events t,
      Stmt.references_events e]
  | .loop c body => by
    simp [Stmt.events, Stmt.references, Expr.references_events, Stmt.references_events body]
  | .function _ name params body => by
    simp [Stmt.events, Token.events, Stmt.references, List.filterMap_cons, Event.reference?,
      Stmt.references_eventsAll body, Token.references_events params]
  | .ret _ value => by
    simp [Stmt.events, Stmt.references, List.filterMap_cons, Event.reference?,
      Expr.references_eventsOption]

theorem Stmt.references_eventsAll : ∀ ss : List Stmt,
    (Stmt.eventsAll ss).filterMap Event.reference? = Stmt.referencesAll ss
  | [] => rfl
  | s :: ss => by
    simp [Stmt.eventsAll, Stmt.referencesAll, Stmt.references_events s,
      Stmt.references_eventsAll ss]

end

/-! ## Histories -/

/-- A scope that was opened: how many events there were before, and whether for a function. -/
structure Opening where
  position : Nat
  isFunction : Bool
  deriving DecidableEq

/-- The events before a moment, the latest first. -/
abbrev History := List Event

namespace History

/-- The scopes that are open, the innermost first. -/
def scopes : History → List Opening
  | [] => []
  | .enter isFunction :: past => ⟨past.length, isFunction⟩ :: scopes past
  | .leave :: past => (scopes past).tail
  | _ :: past => scopes past

@[simp] theorem scopes_enter (isFunction : Bool) (h : History) :
    scopes (.enter isFunction :: h) = ⟨h.length, isFunction⟩ :: h.scopes := rfl

@[simp] theorem scopes_leave (h : History) : scopes (.leave :: h) = h.scopes.tail := rfl

@[simp] theorem scopes_declare (name : Token) (h : History) :
    scopes (.declare name :: h) = h.scopes := rfl

@[simp] theorem scopes_complete (name : Token) (h : History) :
    scopes (.complete name :: h) = h.scopes := rfl

@[simp] theorem scopes_refer (access : Access) (target : Reference) (h : History) :
    scopes (.refer access target :: h) = h.scopes := rfl

@[simp] theorem scopes_ret (keyword : Token) (h : History) :
    scopes (.ret keyword :: h) = h.scopes := rfl

/-- Whether a name has been declared in a scope, while that was the innermost one. -/
def declares (scope : Opening) (name : String) : History → Bool
  | [] => false
  | .declare token :: past =>
    (token.lexeme == name && (scopes past).head? == some scope) || declares scope name past
  | _ :: past => declares scope name past

/-- Whether a name has been declared in the innermost scope. -/
def declaresInner (h : History) (name : String) : Bool :=
  h.scopes.head?.any fun scope => h.declares scope name

/--
Whether the initial value of a local variable is being read, where the name was not declared in the
innermost scope before: since its declaration there have been references only.
-/
def initializes (name : String) : History → Bool
  | .declare token :: past =>
    token.lexeme == name && !(scopes past).isEmpty && !declaresInner past name
  | .refer _ _ :: past => initializes name past
  | _ => false

/-- Whether a function is around. -/
def inFunction (h : History) : Bool := h.scopes.any Opening.isFunction

/-! ## The rules -/

/-- The innermost scope in which the name has been declared is `d` scopes out. -/
def Binds (h : History) (name : String) (d : Nat) : Prop :=
  (∃ scope, h.scopes[d]? = some scope ∧ h.declares scope name = true) ∧
    ∀ k < d, ∀ scope, h.scopes[k]? = some scope → h.declares scope name = false

/-- How far out the innermost scope is in which the name has been declared. -/
def distance? (h : History) (name : String) : Option Nat :=
  h.scopes.findIdx? fun scope => h.declares scope name

/-- The event with the distance of the reference filled in. -/
def locate (h : History) : Event → Event
  | .refer access target =>
    .refer access { target with depth := h.distance? target.name.lexeme }
  | e => e

/-- Events that follow a history, each with its distance. -/
def locateAll (h : History) : List Event → List Event
  | [] => []
  | e :: es => h.locate e :: locateAll (e :: h) es

/--
The fault that an event is: a name declared in a scope that has it, a local variable read in its own
initializer, a return outside of functions.
-/
def fault? (h : History) : Event → Option ScopeError
  | .declare name => if h.declaresInner name.lexeme then some ⟨name, .alreadyDeclared⟩ else none
  | .refer .read target =>
    if h.initializes target.name.lexeme then some ⟨target.name, .ownInitializer⟩ else none
  | .ret keyword => if h.inFunction then none else some ⟨keyword, .topLevelReturn⟩
  | _ => none

/-- The faults of events that follow a history, in order. -/
def faults (h : History) : List Event → List ScopeError
  | [] => []
  | e :: es => (h.fault? e).toList ++ faults (e :: h) es

/-- The history after some more events. -/
def after (h : History) (es : List Event) : History := es.reverse ++ h

@[simp] theorem after_nil (h : History) : h.after [] = h := rfl

@[simp] theorem after_cons (h : History) (e : Event) (es : List Event) :
    h.after (e :: es) = after (e :: h) es := by
  simp [after]

@[simp] theorem after_append (h : History) (es es' : List Event) :
    h.after (es ++ es') = (h.after es).after es' := by
  simp [after]

@[simp] theorem faults_append (h : History) (es es' : List Event) :
    h.faults (es ++ es') = h.faults es ++ (h.after es).faults es' := by
  induction es generalizing h with
  | nil => rfl
  | cons e es ih => rw [List.cons_append, faults, faults, ih, after_cons, List.append_assoc]

@[simp] theorem locateAll_append (h : History) (es es' : List Event) :
    h.locateAll (es ++ es') = h.locateAll es ++ (h.after es).locateAll es' := by
  induction es generalizing h with
  | nil => rfl
  | cons e es ih => rw [List.cons_append, locateAll, locateAll, ih, after_cons, List.cons_append]

theorem distance?_eq_some_iff {h : History} {name : String} {d : Nat} :
    h.distance? name = some d ↔ h.Binds name d := by
  rw [distance?, List.findIdx?_eq_some_iff_getElem, Binds]
  constructor
  · rintro ⟨hlt, hd, hinner⟩
    refine ⟨⟨_, List.getElem?_eq_getElem hlt, hd⟩, ?_⟩
    intro k hk scope hscope
    obtain ⟨-, rfl⟩ := List.getElem?_eq_some_iff.mp hscope
    simpa using hinner k hk
  · rintro ⟨⟨scope, hscope, hd⟩, hinner⟩
    obtain ⟨hlt, rfl⟩ := List.getElem?_eq_some_iff.mp hscope
    refine ⟨hlt, hd, ?_⟩
    intro k hk
    simpa using hinner k hk _ (List.getElem?_eq_getElem (Nat.lt_trans hk hlt))

/-! ## Open scopes -/

/-- A scope that is open was opened before. -/
theorem position_lt {h : History} {scope : Opening} (hs : scope ∈ h.scopes) :
    scope.position < h.length := by
  fun_induction scopes h with
  | case1 => cases hs
  | case2 isFunction past ih =>
    rcases List.mem_cons.mp hs with rfl | hs
    · exact Nat.lt_succ_self _
    · exact Nat.lt_succ_of_lt (ih hs)
  | case3 past ih => exact Nat.lt_succ_of_lt (ih (List.mem_of_mem_tail hs))
  | case4 e past _ _ ih => exact Nat.lt_succ_of_lt (ih hs)

/-- Scopes are opened at different moments. -/
theorem scopes_nodup (h : History) : h.scopes.Nodup := by
  fun_induction scopes h with
  | case1 => exact List.nodup_nil
  | case2 isFunction past ih =>
    refine List.nodup_cons.mpr ⟨?_, ih⟩
    intro hmem
    exact Nat.lt_irrefl _ (position_lt hmem)
  | case3 past ih => exact ih.sublist (List.tail_sublist _)
  | case4 e past _ _ ih => exact ih

/-- Nothing has been declared in a scope that is not open yet. -/
theorem declares_of_length_le {h : History} {scope : Opening} (hs : h.length ≤ scope.position)
    (name : String) : h.declares scope name = false := by
  fun_induction declares scope name h with
  | case1 => rfl
  | case2 token past ih =>
    have hle : past.length ≤ scope.position := Nat.le_of_succ_le hs
    have hhead : (scopes past).head? ≠ some scope := by
      intro heq
      exact Nat.not_lt.mpr hle (position_lt (List.mem_of_mem_head? heq))
    simp [ih hle, hhead]
  | case3 e past _ ih => exact ih (Nat.le_of_succ_le hs)

end History

end Nya
