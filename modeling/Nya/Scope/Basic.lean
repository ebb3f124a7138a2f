import Nya.Tree.Basic

/-!
# Static scopes

While a program is resolved, each block and each function body has a scope: the names declared in
it so far, each marked as ready or not. A name is not ready while its own initializer is read.

The scopes are a list, the innermost first. The global scope is not in it: globals may be declared
again, and are found when the program runs.
-/

namespace Nya

/-- The names of one scope, with whether each is ready. -/
abbrev Scope := List (String × Bool)

namespace Scope

/-- Whether a name is ready, if the scope has it. -/
def ready? (scope : Scope) (name : String) : Option Bool := scope.lookup name

/-- Whether the scope has a name. -/
def has (scope : Scope) (name : String) : Bool := (scope.ready? name).isSome

/-- Marks a name in the scope, adding it if need be. -/
def mark (name : String) (ready : Bool) : Scope → Scope
  | [] => [(name, ready)]
  | (n, r) :: rest => if n = name then (name, ready) :: rest else (n, r) :: mark name ready rest

/-- A name that was just marked has that mark. -/
@[simp] theorem ready?_mark_self (name : String) (ready : Bool) (scope : Scope) :
    (mark name ready scope).ready? name = some ready := by
  induction scope with
  | nil => simp [mark, ready?]
  | cons entry rest ih =>
    obtain ⟨n, r⟩ := entry
    by_cases h : n = name
    · simp [mark, ready?, h]
    · have h' : (name == n) = false := by simpa using Ne.symm h
      simpa [mark, ready?, h, h', List.lookup_cons] using ih

/-- Marking a name leaves all other names as they are. -/
theorem ready?_mark_of_ne {name other : String} (h : other ≠ name) (ready : Bool)
    (scope : Scope) : (mark name ready scope).ready? other = scope.ready? other := by
  have h' : (other == name) = false := by simpa using h
  induction scope with
  | nil => simp [mark, ready?, List.lookup_cons, h']
  | cons entry rest ih =>
    obtain ⟨n, r⟩ := entry
    by_cases hn : n = name
    · simp [mark, ready?, hn, h', List.lookup_cons]
    · simp only [ready?, mark, hn, if_false, List.lookup_cons] at ih ⊢
      rw [ih]

/-- Adds a name that is not ready yet. A name that is there already keeps its mark. -/
def declare (scope : Scope) (name : String) : Scope :=
  if scope.has name then scope else scope.mark name false

/-- Makes a name ready. -/
def define (scope : Scope) (name : String) : Scope := scope.mark name true

end Scope

/-- The scopes around a piece of program, the innermost first. -/
abbrev Scopes := List Scope

namespace Scopes

/-- Changes the innermost scope, if there is one. -/
def updateInner (f : Scope → Scope) : Scopes → Scopes
  | [] => []
  | scope :: outer => f scope :: outer

/-- Declares a name in the innermost scope. -/
def declare (scopes : Scopes) (name : String) : Scopes :=
  scopes.updateInner fun scope => scope.declare name

/-- Makes a name ready in the innermost scope. -/
def define (scopes : Scopes) (name : String) : Scopes :=
  scopes.updateInner fun scope => scope.define name

/-- Declares a name and makes it ready at once. -/
def introduce (scopes : Scopes) (name : String) : Scopes := (scopes.declare name).define name

/-- Whether the innermost scope has a name. -/
def hasInner : Scopes → String → Bool
  | [], _ => false
  | scope :: _, name => scope.has name

/-- Whether the innermost scope has a name that is not ready. -/
def isPending : Scopes → String → Bool
  | [], _ => false
  | scope :: _, name => scope.ready? name == some false

/-- How many scopes lie between here and the innermost scope that has the name. -/
def depth? (scopes : Scopes) (name : String) : Option Nat :=
  scopes.findIdx? fun scope => scope.has name

end Scopes

end Nya
