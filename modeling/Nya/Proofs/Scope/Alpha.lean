import Nya.Scope.Resolve

/-!
# Programs that differ in the names of locals

Two names are exchanged in some scopes of a program: in what the scope declares, and in the
references that resolution has bound to it. Which of the scopes around a piece of program are
meant is a list of marks, and the trees are related by `Stmt.Alpha`: every scope inside may be
marked or not.
-/

namespace Nya

/-! ## Marks -/

/-- Two names, each to take the other's place. -/
structure Swap where
  old : String
  new : String

/-- The name that stands for a name in a scope with the given mark. -/
def Swap.apply (ρ : Swap) (marked : Bool) (name : String) : String :=
  if marked then
    if name = ρ.old then ρ.new else if name = ρ.new then ρ.old else name
  else name

/-- The marks of the scopes around a piece of program, the innermost first. -/
abbrev Marks := Nat → Bool

namespace Marks

/-- No scope is marked. -/
def none : Marks := fun _ => false

/-- The marks inside one more scope. -/
def push (marks : Marks) (marked : Bool) : Marks
  | 0 => marked
  | n + 1 => marks n

@[simp] theorem push_zero (marks : Marks) (marked : Bool) : marks.push marked 0 = marked := rfl

@[simp] theorem push_succ (marks : Marks) (marked : Bool) (n : Nat) :
    marks.push marked (n + 1) = marks n := rfl

@[simp] theorem none_apply (n : Nat) : none n = false := rfl

@[simp] theorem push_none : none.push false = none := by
  funext n
  cases n <;> rfl

end Marks

namespace Swap

variable (ρ : Swap)

@[simp] theorem apply_false (name : String) : ρ.apply false name = name := rfl

/-- Exchanging twice changes nothing. -/
@[simp] theorem apply_apply (marked : Bool) (name : String) :
    ρ.apply marked (ρ.apply marked name) = name := by
  unfold apply
  grind

theorem apply_inj {marked : Bool} {name other : String} :
    ρ.apply marked name = ρ.apply marked other ↔ name = other := by
  constructor
  · intro h
    rw [← ρ.apply_apply marked name, h, ρ.apply_apply]
  · rintro rfl
    rfl

/-- A name goes to itself or to the new name and back. -/
theorem apply_apply_eq_or {name : String} (h : name ≠ ρ.new) (marked marked' : Bool) :
    ρ.apply marked' (ρ.apply marked name) = name ∨
      ρ.apply marked' (ρ.apply marked name) = ρ.new := by
  unfold apply
  grind

/-- A name other than the two is kept. -/
theorem apply_of_ne {name : String} (hold : name ≠ ρ.old) (hnew : name ≠ ρ.new) (marked : Bool) :
    ρ.apply marked name = name := by
  simp [apply, hold, hnew]

@[simp] theorem apply_old : ρ.apply true ρ.old = ρ.new := by simp [apply]

end Swap

/-! ## Trees -/

/-- The token with the name that stands for its own. -/
def Token.swapped (ρ : Swap) (marked : Bool) (token : Token) : Token :=
  { token with lexeme := ρ.apply marked token.lexeme }

/-- The mark of the scope that a reference is bound to. Globals are never marked. -/
def Reference.mark (marks : Marks) (r : Reference) : Bool :=
  match r.depth with
  | some depth => marks depth
  | none => false

/-- The reference under the name of its scope. -/
def Reference.swapped (ρ : Swap) (marks : Marks) (r : Reference) : Reference :=
  { r with name := r.name.swapped ρ (r.mark marks) }

mutual

/-- The expression with every reference changed in the same way. -/
def Expr.mapReferences (f : Reference → Reference) : Expr → Expr
  | .literal id value => .literal id value
  | .read target => .read (f target)
  | .assign target value => .assign (f target) (value.mapReferences f)
  | .unary id operator right => .unary id operator (right.mapReferences f)
  | .binary id left operator right =>
    .binary id (left.mapReferences f) operator (right.mapReferences f)
  | .logical id left operator right =>
    .logical id (left.mapReferences f) operator (right.mapReferences f)
  | .group id inner => .group id (inner.mapReferences f)
  | .call id callee arguments paren =>
    .call id (callee.mapReferences f) (Expr.mapReferencesAll f arguments) paren

/-- Expressions with every reference changed in the same way. -/
def Expr.mapReferencesAll (f : Reference → Reference) : List Expr → List Expr
  | [] => []
  | e :: es => e.mapReferences f :: Expr.mapReferencesAll f es

end

/-- The expression with every reference under the name of its scope. -/
def Expr.swapped (ρ : Swap) (marks : Marks) (e : Expr) : Expr :=
  e.mapReferences (Reference.swapped ρ marks)

mutual

/--
The second statement is the first with the two names exchanged in all marked scopes. Each scope that
it opens is marked or not. The names of functions stay.
-/
inductive Stmt.Alpha (ρ : Swap) : Marks → Stmt → Stmt → Prop
  | expression (marks : Marks) (e : Expr) :
    Alpha ρ marks (.expression e) (.expression (e.swapped ρ marks))
  | print (marks : Marks) (e : Expr) : Alpha ρ marks (.print e) (.print (e.swapped ρ marks))
  | var (marks : Marks) (name : Token) (init : Option Expr) :
    Alpha ρ marks (.var name init)
      (.var (name.swapped ρ (marks 0)) (init.map (Expr.swapped ρ marks)))
  | block {marks : Marks} {body body' : List Stmt} (marked : Bool)
    (h : AlphaAll ρ (marks.push marked) body body') : Alpha ρ marks (.block body) (.block body')
  | branch {marks : Marks} {thenBranch thenBranch' : Stmt} (condition : Expr)
    (h : Alpha ρ marks thenBranch thenBranch') :
    Alpha ρ marks (.branch condition thenBranch none)
      (.branch (condition.swapped ρ marks) thenBranch' none)
  | branchElse {marks : Marks} {thenBranch thenBranch' elseBranch elseBranch' : Stmt}
    (condition : Expr) (hthen : Alpha ρ marks thenBranch thenBranch')
    (helse : Alpha ρ marks elseBranch elseBranch') :
    Alpha ρ marks (.branch condition thenBranch (some elseBranch))
      (.branch (condition.swapped ρ marks) thenBranch' (some elseBranch'))
  | loop {marks : Marks} {body body' : Stmt} (condition : Expr) (h : Alpha ρ marks body body') :
    Alpha ρ marks (.loop condition body) (.loop (condition.swapped ρ marks) body')
  | function {marks : Marks} {name : Token} {body body' : List Stmt} (id : Nat)
    (params : List Token) (marked : Bool) (hname : ρ.apply (marks 0) name.lexeme = name.lexeme)
    (h : AlphaAll ρ (marks.push marked) body body') :
    Alpha ρ marks (.function id name params body)
      (.function id name (params.map (Token.swapped ρ marked)) body')
  | ret (marks : Marks) (keyword : Token) (value : Option Expr) :
    Alpha ρ marks (.ret keyword value) (.ret keyword (value.map (Expr.swapped ρ marks)))

/-- Statements that are related one by one. -/
inductive Stmt.AlphaAll (ρ : Swap) : Marks → List Stmt → List Stmt → Prop
  | nil (marks : Marks) : AlphaAll ρ marks [] []
  | cons {marks : Marks} {s s' : Stmt} {ss ss' : List Stmt} (h : Stmt.Alpha ρ marks s s')
    (hs : AlphaAll ρ marks ss ss') : AlphaAll ρ marks (s :: ss) (s' :: ss')

end

/-! Without a mark nothing changes. -/

@[simp] theorem Token.swapped_false (ρ : Swap) (token : Token) :
    token.swapped ρ false = token := rfl

@[simp] theorem Reference.mark_none (r : Reference) : r.mark Marks.none = false := by
  unfold Reference.mark
  split <;> rfl

@[simp] theorem Reference.swapped_none (ρ : Swap) (r : Reference) :
    r.swapped ρ Marks.none = r := by
  simp [Reference.swapped]

mutual

/-- A change of references that leaves those of an expression alone leaves it alone. -/
theorem Expr.mapReferences_eq_self_iff {f : Reference → Reference} : ∀ {e : Expr},
    e.mapReferences f = e ↔ ∀ r ∈ e.references, f r.2 = r.2
  | .literal _ _ => by simp [Expr.mapReferences, Expr.references]
  | .read _ => by simp [Expr.mapReferences, Expr.references]
  | .assign _ e => by
    simp [Expr.mapReferences, Expr.references, Expr.mapReferences_eq_self_iff (e := e), or_imp,
      forall_and, and_comm]
  | .unary _ _ e | .group _ e => by
    simp [Expr.mapReferences, Expr.references, Expr.mapReferences_eq_self_iff (e := e)]
  | .binary _ l _ r | .logical _ l _ r => by
    simp [Expr.mapReferences, Expr.references, Expr.mapReferences_eq_self_iff (e := l),
      Expr.mapReferences_eq_self_iff (e := r), or_imp, forall_and]
  | .call _ c es _ => by
    simp [Expr.mapReferences, Expr.references, Expr.mapReferences_eq_self_iff (e := c),
      Expr.mapReferencesAll_eq_self_iff es, or_imp, forall_and]

theorem Expr.mapReferencesAll_eq_self_iff {f : Reference → Reference} : ∀ es : List Expr,
    Expr.mapReferencesAll f es = es ↔ ∀ r ∈ Expr.referencesAll es, f r.2 = r.2
  | [] => by simp [Expr.mapReferencesAll, Expr.referencesAll]
  | e :: es => by
    simp [Expr.mapReferencesAll, Expr.referencesAll, Expr.mapReferences_eq_self_iff (e := e),
      Expr.mapReferencesAll_eq_self_iff es, or_imp, forall_and]

end

@[simp] theorem Expr.swapped_none (ρ : Swap) (e : Expr) : e.swapped ρ Marks.none = e :=
  Expr.mapReferences_eq_self_iff.mpr fun r _ => Reference.swapped_none ρ r.2

theorem Expr.map_swapped_none (ρ : Swap) (e : Option Expr) :
    e.map (Expr.swapped ρ Marks.none) = e := by
  cases e <;> simp

theorem Token.map_swapped_false (ρ : Swap) (tokens : List Token) :
    tokens.map (Token.swapped ρ false) = tokens := by
  simp [show Token.swapped ρ false = id from rfl]

mutual

/-- Every statement is related to itself, with no scope marked. -/
theorem Stmt.Alpha.refl (ρ : Swap) : ∀ s : Stmt, s.Alpha ρ Marks.none s
  | .expression e => by
    simpa using (Stmt.Alpha.expression Marks.none e : Stmt.Alpha ρ _ _ _)
  | .print e => by simpa using (Stmt.Alpha.print Marks.none e : Stmt.Alpha ρ _ _ _)
  | .var name init => by
    simpa [Expr.map_swapped_none] using
      (Stmt.Alpha.var Marks.none name init : Stmt.Alpha ρ _ _ _)
  | .block body => .block false (by simpa using Stmt.AlphaAll.refl ρ body)
  | .branch condition t none => by simpa using Stmt.Alpha.branch condition (Stmt.Alpha.refl ρ t)
  | .branch condition t (some e) => by
    simpa using Stmt.Alpha.branchElse condition (Stmt.Alpha.refl ρ t) (Stmt.Alpha.refl ρ e)
  | .loop condition body => by simpa using Stmt.Alpha.loop condition (Stmt.Alpha.refl ρ body)
  | .function id name params body => by
    have hbody : Stmt.AlphaAll ρ (Marks.none.push false) body body := by
      simpa using Stmt.AlphaAll.refl ρ body
    simpa [Token.map_swapped_false] using
      Stmt.Alpha.function id params false (ρ.apply_false name.lexeme) hbody
  | .ret keyword value => by
    simpa [Expr.map_swapped_none] using
      (Stmt.Alpha.ret Marks.none keyword value : Stmt.Alpha ρ _ _ _)

theorem Stmt.AlphaAll.refl (ρ : Swap) : ∀ ss : List Stmt, Stmt.AlphaAll ρ Marks.none ss ss
  | [] => .nil _
  | s :: ss => .cons (Stmt.Alpha.refl ρ s) (Stmt.AlphaAll.refl ρ ss)

end

/-! ## The names of a tree -/

/-- The names that an expression refers to. -/
def Expr.names (e : Expr) : List String := e.references.map fun r => r.2.name.lexeme

/-- The names that an expression refers to, if there is one. -/
def Expr.namesOption (e : Option Expr) : List String :=
  (Expr.referencesOption e).map fun r => r.2.name.lexeme

mutual

/-- All names in a statement, declared or referred to. -/
def Stmt.names : Stmt → List String
  | .expression e | .print e => e.names
  | .var name init => name.lexeme :: Expr.namesOption init
  | .block body => Stmt.namesAll body
  | .branch condition thenBranch none => condition.names ++ thenBranch.names
  | .branch condition thenBranch (some elseBranch) =>
    condition.names ++ thenBranch.names ++ elseBranch.names
  | .loop condition body => condition.names ++ body.names
  | .function _ name params body =>
    name.lexeme :: (params.map Token.lexeme ++ Stmt.namesAll body)
  | .ret _ value => Expr.namesOption value

/-- All names in a list of statements. -/
def Stmt.namesAll : List Stmt → List String
  | [] => []
  | s :: ss => s.names ++ Stmt.namesAll ss

end

end Nya
