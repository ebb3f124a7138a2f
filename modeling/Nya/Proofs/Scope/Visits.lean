import Nya.Scope.Resolve

/-!
# What resolution visits

Resolution walks a program with a stack of scopes. Here each scope on the stack is kept together
with what opened it, and every reference together with the stack at the moment it was visited.

* `Stmt.visits` is the record of all visits, in the order of the walk
* `Stmt.entries_visits` says that without the stacks the record is the list of references of the
  resolved tree, so the walk is that of `Stmt.resolve`
* `Stmt.visits_sound` says what a program without faults guarantees of a visit
-/

namespace Nya

/-! ## Scopes with their openers -/

/-- What opens a scope: a block, or a call of a function. The trees in it are resolved ones. -/
inductive Opener where
  | block (body : List Stmt)
  | function (declaration : Declaration)

/-- The statements that are run in the scope. -/
def Opener.body : Opener → List Stmt
  | block body => body
  | function declaration => declaration.body

/-- A scope, and what opened it. -/
structure Level where
  opener : Opener
  scope : Scope

/-- The scopes around a piece of program with their openers, the innermost first. -/
abbrev Levels := List Level

namespace Levels

/-- The scopes alone. -/
def scopes (levels : Levels) : Scopes := levels.map Level.scope

/-- Changes the innermost scope, if there is one. -/
def updateInner (f : Scope → Scope) : Levels → Levels
  | [] => []
  | level :: outer => ⟨level.opener, f level.scope⟩ :: outer

/-- Declares a name in the innermost scope. -/
def declare (levels : Levels) (name : String) : Levels :=
  levels.updateInner fun scope => scope.declare name

/-- Makes a name ready in the innermost scope. -/
def define (levels : Levels) (name : String) : Levels :=
  levels.updateInner fun scope => scope.define name

/-- Declares a name and makes it ready at once. -/
def introduce (levels : Levels) (name : String) : Levels := (levels.declare name).define name

/-- Opens a scope. -/
def enter (levels : Levels) (opener : Opener) : Levels := ⟨opener, []⟩ :: levels

/-- The levels of a function body before its first statement. -/
def call (levels : Levels) (d : Declaration) : Levels :=
  d.params.foldl (fun levels param => levels.introduce param.lexeme) (levels.enter (.function d))

@[simp] theorem scopes_nil : scopes [] = [] := rfl

@[simp] theorem scopes_updateInner (levels : Levels) (f : Scope → Scope) :
    (levels.updateInner f).scopes = levels.scopes.updateInner f := by
  cases levels <;> rfl

@[simp] theorem scopes_declare (levels : Levels) (name : String) :
    (levels.declare name).scopes = levels.scopes.declare name := by
  simp [declare, Scopes.declare]

@[simp] theorem scopes_introduce (levels : Levels) (name : String) :
    (levels.introduce name).scopes = levels.scopes.introduce name := by
  simp [introduce, define, Scopes.introduce, Scopes.define]

@[simp] theorem scopes_enter (levels : Levels) (opener : Opener) :
    (levels.enter opener).scopes = [] :: levels.scopes := rfl

@[simp] theorem scopes_call (levels : Levels) (d : Declaration) :
    (levels.call d).scopes = parameterScope levels.scopes d.params := by
  have key : ∀ (params : List Token) (levels : Levels),
      (params.foldl (fun levels param => levels.introduce param.lexeme) levels).scopes =
        params.foldl (fun scopes param => scopes.introduce param.lexeme) levels.scopes := by
    intro params
    induction params with
    | nil => intro levels; rfl
    | cons param params ih =>
      intro levels
      rw [List.foldl_cons, List.foldl_cons, ih, scopes_introduce]
  exact key d.params (levels.enter (.function d))

end Levels

/-- The levels that a statement leaves behind. -/
def Stmt.afterLevels (levels : Levels) : Stmt → Levels
  | .var name _ | .function _ name _ _ => levels.introduce name.lexeme
  | .branch _ thenBranch none => thenBranch.afterLevels levels
  | .branch _ thenBranch (some elseBranch) =>
    elseBranch.afterLevels (thenBranch.afterLevels levels)
  | .loop _ body => body.afterLevels levels
  | .expression _ | .print _ | .block _ | .ret _ _ => levels

/-- The levels that statements leave behind. -/
def Stmt.afterLevelsAll (levels : Levels) (ss : List Stmt) : Levels :=
  ss.foldl Stmt.afterLevels levels

/-- Levels change in the way scopes do. -/
@[simp] theorem Stmt.scopes_afterLevels : ∀ (levels : Levels) (s : Stmt),
    (s.afterLevels levels).scopes = s.after levels.scopes
  | levels, .var _ _ | levels, .function _ _ _ _ => by simp [afterLevels, after]
  | levels, .branch _ t none => by
    rw [afterLevels, after, scopes_afterLevels levels t]
  | levels, .branch _ t (some e) => by
    rw [afterLevels, after, scopes_afterLevels _ e, scopes_afterLevels levels t]
  | levels, .loop _ body => by
    rw [afterLevels, after, scopes_afterLevels levels body]
  | levels, .expression _ | levels, .print _ | levels, .block _ | levels, .ret _ _ => rfl

/-- Outside of all scopes there is nothing to change. -/
theorem Stmt.afterLevels_nil : ∀ s : Stmt, s.afterLevels [] = []
  | .var _ _ | .function _ _ _ _ => rfl
  | .branch _ t none => by rw [afterLevels, afterLevels_nil t]
  | .branch _ t (some e) => by rw [afterLevels, afterLevels_nil t, afterLevels_nil e]
  | .loop _ body => by rw [afterLevels, afterLevels_nil body]
  | .expression _ | .print _ | .block _ | .ret _ _ => rfl

/-! ## Visits -/

/-- A visit of resolution: the reference as it was resolved, and the levels at that moment. -/
structure Visit where
  access : Access
  reference : Reference
  levels : Levels

/-- The visits of an expression. No expression opens a scope, so all have the same levels. -/
def Expr.visits (levels : Levels) (e : Expr) : List Visit :=
  (e.resolve levels.scopes).references.map fun r => ⟨r.1, r.2, levels⟩

/-- The visits of an expression that may be missing. -/
def Expr.visitsOption (levels : Levels) : Option Expr → List Visit
  | none => []
  | some e => e.visits levels

mutual

/-- The visits of a statement, in the order of the walk. -/
def Stmt.visits (levels : Levels) : Stmt → List Visit
  | .expression e | .print e => e.visits levels
  | .var name init => Expr.visitsOption (levels.declare name.lexeme) init
  | .block body =>
    Stmt.visitsAll (levels.enter (.block (Stmt.resolveAll ([] :: levels.scopes) body))) body
  | .branch condition thenBranch none => condition.visits levels ++ thenBranch.visits levels
  | .branch condition thenBranch (some elseBranch) =>
    condition.visits levels ++ thenBranch.visits levels ++
      elseBranch.visits (thenBranch.afterLevels levels)
  | .loop condition body => condition.visits levels ++ body.visits levels
  | .function id name params body =>
    let around := levels.introduce name.lexeme
    let resolved := Stmt.resolveAll (parameterScope around.scopes params) body
    Stmt.visitsAll (around.call ⟨id, name, params, resolved⟩) body
  | .ret _ value => Expr.visitsOption levels value

/-- The visits of statements, one after another. -/
def Stmt.visitsAll (levels : Levels) : List Stmt → List Visit
  | [] => []
  | s :: ss => s.visits levels ++ Stmt.visitsAll (s.afterLevels levels) ss

end

/-- The visits of resolution in a program. -/
def visits (program : List Stmt) : List Visit := Stmt.visitsAll [] program

/-- What is left of a visit without its levels. -/
def Visit.entry (v : Visit) : Access × Reference := (v.access, v.reference)

@[simp] theorem Expr.entries_visits (levels : Levels) (e : Expr) :
    (e.visits levels).map Visit.entry = (e.resolve levels.scopes).references := by
  simp [visits, Function.comp_def, Visit.entry]

@[simp] theorem Expr.entries_visitsOption (levels : Levels) (e : Option Expr) :
    (Expr.visitsOption levels e).map Visit.entry =
      Expr.referencesOption (e.map (Expr.resolve levels.scopes)) := by
  cases e with
  | none => rfl
  | some e => exact e.entries_visits levels

mutual

/-- **Without the levels, the visits are the references of the resolved statement.** -/
theorem Stmt.entries_visits : ∀ (levels : Levels) (s : Stmt),
    (s.visits levels).map Visit.entry = (s.resolve levels.scopes).references
  | levels, .expression e | levels, .print e => by
    simp [Stmt.visits, Stmt.resolve, Stmt.references]
  | levels, .var name init => by simp [Stmt.visits, Stmt.resolve, Stmt.references]
  | levels, .block body => by
    simp [Stmt.visits, Stmt.resolve, Stmt.references, Stmt.entries_visitsAll _ body]
  | levels, .branch c t none => by
    simp [Stmt.visits, Stmt.resolve, Stmt.references, Stmt.entries_visits _ t]
  | levels, .branch c t (some e) => by
    simp [Stmt.visits, Stmt.resolve, Stmt.references, Stmt.entries_visits _ t,
      Stmt.entries_visits _ e]
  | levels, .loop c body => by
    simp [Stmt.visits, Stmt.resolve, Stmt.references, Stmt.entries_visits _ body]
  | levels, .function id name params body => by
    simp [Stmt.visits, Stmt.resolve, Stmt.references, Stmt.entries_visitsAll _ body]
  | levels, .ret _ value => by simp [Stmt.visits, Stmt.resolve, Stmt.references]

/-- The same of statements one after another. -/
theorem Stmt.entries_visitsAll : ∀ (levels : Levels) (ss : List Stmt),
    (Stmt.visitsAll levels ss).map Visit.entry =
      Stmt.referencesAll (Stmt.resolveAll levels.scopes ss)
  | levels, [] => rfl
  | levels, s :: ss => by
    simp [Stmt.visitsAll, Stmt.resolveAll, Stmt.referencesAll, Stmt.entries_visits _ s,
      Stmt.entries_visitsAll _ ss]

end

end Nya
