import Nya.Proofs.Scope.Alpha
import Nya.Proofs.Scope.AlphaResolve
import Nya.Proofs.Scope.Scoped
import Nya.Proofs.Tree.Like

/-!
# Scopes that nobody needs

A scope in which nothing is declared could as well not be there: without it, the references that
lead over it have a smaller depth. Which of the scopes around a piece of program are *spare* is a
list of marks. The trees with and without the spare scopes are related by `Stmt.Thin`: nothing is
declared in a spare scope, no reference leads to one, and each depth is less by the spare scopes
that it leads over.

* `Marks.kept` for depths
* `Stmt.resolve_thin`: resolving a statement with and without scopes that are empty
-/

namespace Nya

/-! ## Depths -/

namespace Marks

/-- How many of the first scopes are not marked. -/
def kept (marks : Marks) : Nat → Nat
  | 0 => 0
  | n + 1 => (if marks 0 then 0 else 1) + kept (fun k => marks (k + 1)) n

@[simp] theorem kept_zero (marks : Marks) : marks.kept 0 = 0 := rfl

theorem kept_push_succ (marks : Marks) (marked : Bool) (n : Nat) :
    (marks.push marked).kept (n + 1) = (if marked then 0 else 1) + marks.kept n := rfl

@[simp] theorem kept_none (n : Nat) : Marks.none.kept n = n := by
  induction n with
  | zero => rfl
  | succ n ih =>
    show 1 + Marks.none.kept n = n + 1
    rw [ih, Nat.add_comm]

end Marks

/-! ## Trees -/

/-- The references are to the same variable, with and without the spare scopes. -/
inductive Reference.Thin (marks : Marks) : Reference → Reference → Prop
  | global (id : Nat) (name : Token) : Thin marks ⟨id, name, none⟩ ⟨id, name, none⟩
  | depth {depth : Nat} (id : Nat) (name : Token) (h : marks depth = false) :
    Thin marks ⟨id, name, some depth⟩ ⟨id, name, some (marks.kept depth)⟩

theorem Reference.Thin.name_eq {marks : Marks} {r r' : Reference} (h : r.Thin marks r') :
    r'.name = r.name := by
  cases h <;> rfl

/-- The expressions are the same, with and without the spare scopes around them. -/
abbrev Expr.Thin (marks : Marks) : Expr → Expr → Prop := Expr.Like (Reference.Thin marks)

mutual

/--
The statements are the same, with and without the spare scopes around them. A declaration does not
stand in a spare scope, and the scopes inside of a statement are all kept.
-/
inductive Stmt.Thin : Marks → Stmt → Stmt → Prop
  | expression {marks : Marks} {e e' : Expr} (h : e.Thin marks e') :
    Thin marks (.expression e) (.expression e')
  | print {marks : Marks} {e e' : Expr} (h : e.Thin marks e') : Thin marks (.print e) (.print e')
  | var {marks : Marks} {init init' : Option Expr} (name : Token) (hkept : marks 0 = false)
    (h : Option.Rel (Expr.Thin marks) init init') : Thin marks (.var name init) (.var name init')
  | block {marks : Marks} {body body' : List Stmt} (h : ThinAll (marks.push false) body body') :
    Thin marks (.block body) (.block body')
  | branch {marks : Marks} {condition condition' : Expr} {thenBranch thenBranch' : Stmt}
    (hcondition : condition.Thin marks condition') (hthen : Thin marks thenBranch thenBranch') :
    Thin marks (.branch condition thenBranch none) (.branch condition' thenBranch' none)
  | branchElse {marks : Marks} {condition condition' : Expr}
    {thenBranch thenBranch' elseBranch elseBranch' : Stmt}
    (hcondition : condition.Thin marks condition') (hthen : Thin marks thenBranch thenBranch')
    (helse : Thin marks elseBranch elseBranch') :
    Thin marks (.branch condition thenBranch (some elseBranch))
      (.branch condition' thenBranch' (some elseBranch'))
  | loop {marks : Marks} {condition condition' : Expr} {body body' : Stmt}
    (hcondition : condition.Thin marks condition') (hbody : Thin marks body body') :
    Thin marks (.loop condition body) (.loop condition' body')
  | function {marks : Marks} {body body' : List Stmt} (id : Nat) (name : Token)
    (params : List Token) (hkept : marks 0 = false)
    (h : ThinAll (marks.push false) body body') :
    Thin marks (.function id name params body) (.function id name params body')
  | ret {marks : Marks} {value value' : Option Expr} (keyword : Token)
    (h : Option.Rel (Expr.Thin marks) value value') :
    Thin marks (.ret keyword value) (.ret keyword value')

/-- Statements that are related one by one. -/
inductive Stmt.ThinAll : Marks → List Stmt → List Stmt → Prop
  | nil (marks : Marks) : ThinAll marks [] []
  | cons {marks : Marks} {s s' : Stmt} {ss ss' : List Stmt} (h : Stmt.Thin marks s s')
    (hs : ThinAll marks ss ss') : ThinAll marks (s :: ss) (s' :: ss')

end

/-! Without a spare scope nothing changes. -/

theorem Reference.thin_refl (r : Reference) : r.Thin Marks.none r := by
  obtain ⟨id, name, depth⟩ := r
  cases depth with
  | none => exact .global id name
  | some depth =>
    have h : Reference.Thin Marks.none ⟨id, name, some depth⟩ ⟨id, name, some _⟩ :=
      .depth id name (Marks.none_apply depth)
    rwa [Marks.kept_none] at h

mutual

theorem Expr.thin_refl : ∀ e : Expr, e.Thin Marks.none e
  | .literal id value => .literal id value
  | .read target => .read target.thin_refl
  | .assign target value => .assign target.thin_refl value.thin_refl
  | .unary id operator right => .unary id operator right.thin_refl
  | .binary id left operator right => .binary id operator left.thin_refl right.thin_refl
  | .logical id left operator right => .logical id operator left.thin_refl right.thin_refl
  | .group id inner => .group id inner.thin_refl
  | .call id callee arguments paren =>
    .call id paren callee.thin_refl (Expr.thinAll_refl arguments)

theorem Expr.thinAll_refl : ∀ es : List Expr, List.Forall₂ (Expr.Thin Marks.none) es es
  | [] => .nil
  | e :: es => .cons e.thin_refl (Expr.thinAll_refl es)

end

theorem Expr.thinOption_refl (e : Option Expr) : Option.Rel (Expr.Thin Marks.none) e e := by
  cases e with
  | none => exact .none
  | some e => exact .some e.thin_refl

mutual

theorem Stmt.thin_refl : ∀ s : Stmt, s.Thin Marks.none s
  | .expression e => .expression e.thin_refl
  | .print e => .print e.thin_refl
  | .var name init => .var name rfl (Expr.thinOption_refl init)
  | .block body => .block (by rw [Marks.push_none]; exact Stmt.thinAll_refl body)
  | .branch condition t none => .branch condition.thin_refl t.thin_refl
  | .branch condition t (some e) => .branchElse condition.thin_refl t.thin_refl e.thin_refl
  | .loop condition body => .loop condition.thin_refl body.thin_refl
  | .function id name params body =>
    .function id name params rfl (by rw [Marks.push_none]; exact Stmt.thinAll_refl body)
  | .ret keyword value => .ret keyword (Expr.thinOption_refl value)

theorem Stmt.thinAll_refl : ∀ ss : List Stmt, Stmt.ThinAll Marks.none ss ss
  | [] => .nil _
  | s :: ss => .cons s.thin_refl (Stmt.thinAll_refl ss)

end

/-! ## Resolution -/

/-- The scopes with and without the spare ones, which are empty. -/
inductive Scopes.Thin : Marks → Scopes → Scopes → Prop
  | base (scopes : Scopes) : Thin Marks.none scopes scopes
  | kept {marks : Marks} {scopes scopes' : Scopes} (scope : Scope) (h : Thin marks scopes scopes') :
    Thin (marks.push false) (scope :: scopes) (scope :: scopes')
  | spare {marks : Marks} {scopes scopes' : Scopes} (h : Thin marks scopes scopes') :
    Thin (marks.push true) ([] :: scopes) scopes'

namespace Scopes.Thin

variable {marks : Marks} {scopes scopes' : Scopes}

/-- A name is found in the same scope. -/
theorem depth? (h : scopes.Thin marks scopes') (name : String) :
    scopes'.depth? name = (scopes.depth? name).map marks.kept ∧
      ∀ d, scopes.depth? name = some d → marks d = false := by
  induction h with
  | base scopes =>
    refine ⟨?_, fun d _ => Marks.none_apply d⟩
    cases scopes.depth? name with
    | none => rfl
    | some d => rw [Option.map_some, Marks.kept_none]
  | @kept marks scopes scopes' scope h ih =>
    rw [depth?_cons, depth?_cons, ih.1]
    by_cases hhas : scope.has name = true
    · rw [if_pos hhas, if_pos hhas]
      refine ⟨rfl, ?_⟩
      rintro d hd
      cases hd
      rfl
    · rw [if_neg hhas, if_neg hhas]
      cases hd : scopes.depth? name with
      | none => simp
      | some d =>
        refine ⟨?_, ?_⟩
        · simp [Marks.kept_push_succ, Nat.add_comm]
        · rintro d' hd'
          cases hd'
          exact ih.2 d hd
  | @spare marks scopes scopes' h ih =>
    have hhas : ¬ Scope.has [] name = true := by simp [Scope.has, Scope.ready?]
    rw [depth?_cons, if_neg hhas, ih.1]
    cases hd : scopes.depth? name with
    | none => simp
    | some d =>
      refine ⟨?_, ?_⟩
      · simp [Marks.kept_push_succ]
      · rintro d' hd'
        cases hd'
        exact ih.2 d hd

/-- The innermost scope may change if it is not spare. -/
theorem updateInner (h : scopes.Thin marks scopes') (hkept : marks 0 = false)
    (f : Scope → Scope) : (scopes.updateInner f).Thin marks (scopes'.updateInner f) := by
  cases h with
  | base => exact .base _
  | kept scope h => exact .kept (f scope) h
  | spare h => cases hkept

theorem introduce (h : scopes.Thin marks scopes') (hkept : marks 0 = false) (name : String) :
    (scopes.introduce name).Thin marks (scopes'.introduce name) :=
  (h.updateInner hkept _).updateInner hkept _

theorem parameterScope (h : scopes.Thin marks scopes') (params : List Token) :
    (Nya.parameterScope scopes params).Thin (marks.push false)
      (Nya.parameterScope scopes' params) := by
  have key : ∀ (params : List Token) {s s' : Scopes}, s.Thin (marks.push false) s' →
      (params.foldl (fun s param => s.introduce param.lexeme) s).Thin (marks.push false)
        (params.foldl (fun s param => s.introduce param.lexeme) s') := by
    intro params
    induction params with
    | nil => intro s s' hs; exact hs
    | cons param params ih => intro s s' hs; exact ih (hs.introduce rfl param.lexeme)
  exact key params (.kept [] h)

end Scopes.Thin

section

variable {marks : Marks} {scopes scopes' : Scopes}

theorem Reference.resolve_thin (h : scopes.Thin marks scopes') (r : Reference) :
    (r.resolve scopes).Thin marks (r.resolve scopes') := by
  obtain ⟨hdepth, hkept⟩ := h.depth? r.name.lexeme
  unfold Reference.resolve
  rw [hdepth]
  cases hd : scopes.depth? r.name.lexeme with
  | none => exact .global r.id r.name
  | some d => exact .depth r.id r.name (hkept d hd)

mutual

theorem Expr.resolve_thin (h : scopes.Thin marks scopes') : ∀ e : Expr,
    (e.resolve scopes).Thin marks (e.resolve scopes')
  | .literal id value => .literal id value
  | .read target => .read (target.resolve_thin h)
  | .assign target value => .assign (target.resolve_thin h) (value.resolve_thin h)
  | .unary id operator right => .unary id operator (right.resolve_thin h)
  | .binary id left operator right =>
    .binary id operator (left.resolve_thin h) (right.resolve_thin h)
  | .logical id left operator right =>
    .logical id operator (left.resolve_thin h) (right.resolve_thin h)
  | .group id inner => .group id (inner.resolve_thin h)
  | .call id callee arguments paren =>
    .call id paren (callee.resolve_thin h) (Expr.resolveAll_thin h arguments)

theorem Expr.resolveAll_thin (h : scopes.Thin marks scopes') : ∀ es : List Expr,
    List.Forall₂ (Expr.Thin marks) (Expr.resolveAll scopes es) (Expr.resolveAll scopes' es)
  | [] => .nil
  | e :: es => .cons (e.resolve_thin h) (Expr.resolveAll_thin h es)

end

theorem Expr.resolveOption_thin (h : scopes.Thin marks scopes') (e : Option Expr) :
    Option.Rel (Expr.Thin marks) (e.map (Expr.resolve scopes)) (e.map (Expr.resolve scopes')) := by
  cases e with
  | none => exact .none
  | some e => exact .some (e.resolve_thin h)

end

/-- A regular statement that declares nothing leaves the scopes as they are. -/
theorem Stmt.after_eq : ∀ {s : Stmt} (scopes : Scopes), s.declares = false → s.Regular →
    s.after scopes = scopes
  | .var _ _, _, h, _ | .function _ _ _ _, _, h, _ => by simp [declares] at h
  | .branch _ t none, scopes, _, h => by rw [after, Stmt.after_eq scopes h.1 h.2]
  | .branch _ t (some e), scopes, _, h => by
    rw [after, Stmt.after_eq scopes h.1.1 h.1.2, Stmt.after_eq scopes h.2.1 h.2.2]
  | .loop _ body, scopes, _, h => by rw [after, Stmt.after_eq scopes h.1 h.2]
  | .expression _, _, _, _ | .print _, _, _, _ | .block _, _, _, _ | .ret _ _, _, _, _ => rfl

theorem Stmt.after_thin {s : Stmt} {marks : Marks} {scopes scopes' : Scopes}
    (h : scopes.Thin marks scopes') (hs : s.Regular)
    (hdeclares : marks 0 = true → s.declares = false) :
    (s.after scopes).Thin marks (s.after scopes') := by
  cases hd : s.declares with
  | false => rwa [s.after_eq scopes hd hs, s.after_eq scopes' hd hs]
  | true =>
    have hkept : marks 0 = false := by
      cases hm : marks 0 with
      | false => rfl
      | true => exact absurd (hdeclares hm) (by rw [hd]; exact Bool.noConfusion)
    cases s with
    | var name init => exact h.introduce hkept name.lexeme
    | function id name params body => exact h.introduce hkept name.lexeme
    | _ => simp [declares] at hd

mutual

/-- **Resolution with scopes that are empty, and without them.** -/
theorem Stmt.resolve_thin : ∀ (s : Stmt) {marks : Marks} {scopes scopes' : Scopes},
    scopes.Thin marks scopes' → s.Regular → (marks 0 = true → s.declares = false) →
    (s.resolve scopes).Thin marks (s.resolve scopes')
  | .expression e, _, _, _, h, _, _ => .expression (e.resolve_thin h)
  | .print e, _, _, _, h, _, _ => .print (e.resolve_thin h)
  | .var name init, marks, _, _, h, _, hd => by
    have hkept : marks 0 = false := by simpa [declares] using hd
    exact .var name hkept (Expr.resolveOption_thin (h.updateInner hkept _) init)
  | .block body, _, _, _, h, hs, _ => .block (Stmt.resolveAll_thin body (.kept [] h) hs rfl)
  | .branch condition t none, _, _, _, h, hs, _ =>
    .branch (condition.resolve_thin h) (t.resolve_thin h hs.2 fun _ => hs.1)
  | .branch condition t (some e), _, scopes, scopes', h, hs, _ => by
    rw [resolve, resolve, t.after_eq scopes hs.1.1 hs.1.2, t.after_eq scopes' hs.1.1 hs.1.2]
    exact .branchElse (condition.resolve_thin h) (t.resolve_thin h hs.1.2 fun _ => hs.1.1)
      (e.resolve_thin h hs.2.2 fun _ => hs.2.1)
  | .loop condition body, _, _, _, h, hs, _ =>
    .loop (condition.resolve_thin h) (body.resolve_thin h hs.2 fun _ => hs.1)
  | .function id name params body, marks, _, _, h, hs, hd => by
    have hkept : marks 0 = false := by simpa [declares] using hd
    exact .function id name params hkept (Stmt.resolveAll_thin body
      ((h.introduce hkept name.lexeme).parameterScope params) hs rfl)
  | .ret keyword value, _, _, _, h, _, _ => .ret keyword (Expr.resolveOption_thin h value)

theorem Stmt.resolveAll_thin : ∀ (ss : List Stmt) {marks : Marks} {scopes scopes' : Scopes},
    scopes.Thin marks scopes' → Stmt.RegularAll ss → marks 0 = false →
    Stmt.ThinAll marks (Stmt.resolveAll scopes ss) (Stmt.resolveAll scopes' ss)
  | [], marks, _, _, _, _, _ => .nil marks
  | s :: ss, marks, _, _, h, hs, hkept => by
    have hd : marks 0 = true → s.declares = false := by simp [hkept]
    exact .cons (s.resolve_thin h hs.1 hd)
      (Stmt.resolveAll_thin ss (s.after_thin h hs.1 hd) hs.2 hkept)

end

end Nya
