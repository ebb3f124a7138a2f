import Nya.Parse.Program

/-!
# What holds of all readers

Whatever the operations are, the grammar puts them together in the same way. So if the operations
of two instances are related, and sequences of related readers are related again, then the grammar
of the one instance is related to that of the other. This is shown here once:
`ClosedExpr.expression` for expressions, `ClosedStmt.declarations` for programs. A property of one
instance is a relation that leaves the second reader out. The fuels of the two need not be the same.

Inside of an expression no semicolon is taken, so relations that hold for other tokens only will do
for expressions.

Two things are more than sequences. An assignment reports a target that is none after its value, at
a token before it; and a faulty declaration is dropped.
-/

namespace Nya

namespace Parse

/-- The token does not end a statement. -/
def Inside (t : Token) : Prop := t.isSymbol .semicolon = false

/-- All tokens but the semicolon may stand inside an expression. -/
theorem inside_of_kind {t : Token} (h : t.kind ≠ .symbol .semicolon) : Inside t := by
  simpa [Inside, Token.isSymbol] using h

theorem inside_of_isSymbol {symbol : Symbol} (h : symbol ≠ .semicolon) {t : Token}
    (ht : t.isSymbol symbol = true) : Inside t := by
  have hkind : t.kind = .symbol symbol := by simpa [Token.isSymbol] using ht
  exact inside_of_kind (by simp [hkind, h])

theorem inside_of_any {symbols : List Symbol} (h : .semicolon ∉ symbols) {t : Token}
    (ht : symbols.any t.isSymbol = true) : Inside t := by
  obtain ⟨symbol, hmem, hsymbol⟩ := List.any_eq_true.mp ht
  exact inside_of_isSymbol (fun heq => h (heq ▸ hmem)) hsymbol

theorem inside_of_literal {t : Token} (ht : (literal? t).isSome = true) : Inside t :=
  inside_of_kind fun hkind => by simp [literal?, hkind] at ht

theorem inside_of_identifier {t : Token} (ht : t.kind = .identifier) : Inside t :=
  inside_of_kind (by simp [ht])

/-- No semicolon is an operator. -/
theorem semicolon_not_mem_levels : ∀ l ∈ levels, .semicolon ∉ l.symbols := by decide

end Parse

namespace Parsing

open Parse

/-- What is read on the two sides of an assignment, or on the left only. -/
def assignment {m : Type → Type} [Parsing m] (p q : m Expr) : m Expr := do
  let left ← p
  match ← take? .equal with
  | none => pure left
  | some equals =>
    let value ← q
    match left with
    | .read target => build fun id => .assign { target with id } value
    | _ =>
      report equals .assignmentTarget
      pure left

/-- An expression is an assignment of operands of the loosest level. -/
theorem expression_eq_assignment {m : Type → Type} [Parsing m] (n : Nat) :
    (expression (n + 1) : m Expr) = assignment (level n levels) (expression n) := by
  rw [expression]
  rfl

variable {m m' : Type → Type} [Parsing m] [Parsing m']

/-- The small readers are related, and so are sequences of related ones. -/
structure Closed (R : ⦃α : Type⦄ → m α → m' α → Prop) : Prop where
  pure {α : Type} (v : α) : R (pure v : m α) (pure v)
  bind {α β : Type} {p : m β} {p' : m' β} {k : β → m α} {k' : β → m' α} (first : R p p')
    (second : ∀ v, R (k v) (k' v)) : R (p >>= k) (p' >>= k')
  outOfFuel {α : Type} : R (outOfFuel : m α) outOfFuel
  fail {α : Type} (cause : SyntaxCause) : R (fail cause : m α) (fail cause)
  build (make : Nat → Expr) : R (build make) (build make)
  nextIs (symbol : Symbol) : R (nextIs symbol) (nextIs symbol)
  takeIf {test : Token → Bool} (inside : ∀ t, test t = true → Inside t) :
    R (takeIf test) (takeIf test)

/-- Fuels that go together: one unit less on both sides, and a reader without fuel is related. -/
structure Fuels (R : ⦃α : Type⦄ → m α → m' α → Prop) (F : Nat → Nat → Prop) : Prop where
  dry {α : Type} {k : Nat} {q : Nat → m' α} (hk : F 0 k) (hq : q 0 = outOfFuel) :
    R (outOfFuel : m α) (q k)
  next {n k : Nat} (hk : F (n + 1) k) : ∃ j, k = j + 1 ∧ F n j

/-- Assignments of related readers are related, and so are the reports of too many arguments. -/
structure ClosedExpr (R : ⦃α : Type⦄ → m α → m' α → Prop) (F : Nat → Nat → Prop) : Prop
    extends Closed R, Fuels R F where
  tooManyArguments : R (reportHere .tooManyArguments) (reportHere .tooManyArguments)
  assignment {p q : m Expr} {p' q' : m' Expr} (left : R p p') (value : R q q') :
    R (assignment p q) (assignment p' q')

/-- Expressions are related, and so is what reads statements. -/
structure ClosedStmt (R : ⦃α : Type⦄ → m α → m' α → Prop) (F : Nat → Nat → Prop) : Prop
    extends Closed R, Fuels R F where
  takeAny (test : Token → Bool) : R (Parsing.takeIf test) (Parsing.takeIf test)
  expression {n k : Nat} (hk : F n k) : R (expression n) (expression k)
  newFunction : R newFunction newFunction
  peek? : R peek? peek?
  tooManyParameters : R (reportHere .tooManyParameters) (reportHere .tooManyParameters)
  declared {n k : Nat} (inner : R (declaration n) (declaration k)) :
    R (declared (declaration n)) (declared (declaration k))

/-- More fuel on the second side, where a reader without fuel is related to all. -/
theorem Fuels.le {R : ⦃α : Type⦄ → m α → m' α → Prop}
    (h : ∀ {α : Type} (q : m' α), R (outOfFuel : m α) q) : Fuels R (· ≤ ·) where
  dry _ _ := h _
  next {n k} hk := by
    cases k with
    | zero => exact absurd hk (Nat.not_succ_le_zero n)
    | succ k => exact ⟨k, rfl, Nat.le_of_succ_le_succ hk⟩

namespace Closed

variable {R : ⦃α : Type⦄ → m α → m' α → Prop} (h : Closed R)

include h

/-- The same fuel on both sides. -/
theorem sameFuel : Fuels R Eq where
  dry hk hq := by
    rw [← hk, hq]
    exact h.outOfFuel
  next hk := ⟨_, hk.symm, rfl⟩

theorem take? {symbol : Symbol} (hs : symbol ≠ .semicolon) : R (take? symbol) (take? symbol) :=
  h.takeIf fun _ => inside_of_isSymbol hs

theorem expect {symbol : Symbol} (hs : symbol ≠ .semicolon) (cause : SyntaxCause) :
    R (expect symbol cause) (expect symbol cause) := by
  refine h.bind (h.take? hs) fun found => ?_
  cases found with
  | none => exact h.fail cause
  | some t => exact h.pure t

theorem expectName (cause : SyntaxCause) : R (expectName cause) (expectName cause) := by
  refine h.bind (h.takeIf fun _ ht => inside_of_identifier (eq_of_beq ht)) fun found => ?_
  cases found with
  | none => exact h.fail cause
  | some t => exact h.pure t

/-- Limits are related as soon as the reports are. -/
theorem limit {cause : SyntaxCause} (hreport : R (reportHere cause) (reportHere cause))
    (count : Nat) : R (limit count cause) (limit count cause) := by
  unfold Parsing.limit
  split
  · exact hreport
  · exact h.pure ()

theorem listBefore {α : Type} {items : m (List α)} {items' : m' (List α)} (stop : Symbol)
    (hitems : R items items') : R (listBefore stop items) (listBefore stop items') := by
  refine h.bind (h.nextIs stop) fun found => ?_
  cases found with
  | true => exact h.pure []
  | false => exact hitems

/-- Where the reports of targets are related, assignments are. -/
theorem assignment
    (hreport : ∀ t, R (report t .assignmentTarget) (report t .assignmentTarget))
    {p q : m Expr} {p' q' : m' Expr} (left : R p p') (value : R q q') :
    R (assignment p q) (assignment p' q') := by
  refine h.bind left fun left => h.bind (h.take? (by decide)) fun equals => ?_
  cases equals with
  | none => exact h.pure left
  | some equals =>
    refine h.bind value fun value => ?_
    cases left with
    | read target => exact h.build _
    | _ => exact h.bind (hreport equals) fun _ => h.pure _

section

variable {n k : Nat} (hexpression : R (expression n) (expression k))
include hexpression

theorem expressionUnless (stop : Symbol) :
    R (expressionUnless n stop) (expressionUnless k stop) := by
  refine h.bind (h.nextIs stop) fun found => ?_
  cases found with
  | true => exact h.pure none
  | false => exact h.bind hexpression fun e => h.pure (some e)

theorem initialValue : R (initialValue n) (initialValue k) := by
  refine h.bind (h.take? (by decide)) fun equals => ?_
  cases equals with
  | none => exact h.pure none
  | some equals => exact h.bind hexpression fun e => h.pure (some e)

end

section

variable {F : Nat → Nat → Prop} (hF : Fuels R F)
  (hreport : R (reportHere .tooManyParameters) (reportHere .tooManyParameters))
include hF hreport

theorem parameters : ∀ {n k : Nat}, F n k → ∀ count : Nat,
    R (parameters n count) (parameters k count)
  | 0, _, hk, count => hF.dry (q := fun k => Parsing.parameters k count) hk rfl
  | n + 1, _, hnk, count => by
    obtain ⟨k, rfl, hk⟩ := hF.next hnk
    rw [Parsing.parameters, Parsing.parameters]
    refine h.bind (h.limit hreport count) fun _ => ?_
    refine h.bind (h.expectName _) fun first => ?_
    refine h.bind (h.take? (by decide)) fun comma => ?_
    cases comma with
    | none => exact h.pure [first]
    | some comma => exact h.bind (parameters hk (count + 1)) fun others => h.pure _

theorem parameterList {n k : Nat} (hk : F n k) :
    R (Parsing.listBefore .rightParen (Parsing.parameters n 0))
      (Parsing.listBefore .rightParen (Parsing.parameters k 0)) :=
  h.listBefore _ (h.parameters hF hreport hk 0)

end

end Closed

/-! ## Expressions -/

namespace ClosedExpr

variable {R : ⦃α : Type⦄ → m α → m' α → Prop} {F : Nat → Nat → Prop}
  (h : ClosedExpr R F)

include h

mutual

/-- Expressions are related. -/
theorem expression : ∀ {n k : Nat}, F n k → R (expression n) (expression k)
  | 0, _, hk => h.dry hk rfl
  | n + 1, _, hnk => by
    obtain ⟨k, rfl, hk⟩ := h.next hnk
    rw [expression_eq_assignment, expression_eq_assignment]
    exact h.assignment (level hk levels semicolon_not_mem_levels) (expression hk)
termination_by structural n => n

theorem level : ∀ {n k : Nat}, F n k → ∀ ls : List Level, (∀ l ∈ ls, .semicolon ∉ l.symbols) →
    R (level n ls) (level k ls)
  | 0, _, hk, ls, _ => h.dry (q := fun k => Parsing.level k ls) hk rfl
  | n + 1, _, hnk, [], _ => by
    obtain ⟨k, rfl, hk⟩ := h.next hnk
    exact unary hk
  | n + 1, _, hnk, l :: tighter, hls => by
    obtain ⟨k, rfl, hk⟩ := h.next hnk
    obtain ⟨hl, htighter⟩ := List.forall_mem_cons.mp hls
    rw [Parsing.level, Parsing.level]
    exact h.bind (level hk tighter htighter) fun left => chain hk hl htighter left
termination_by structural n => n

theorem chain : ∀ {n k : Nat}, F n k → ∀ {l : Level} {tighter : List Level},
    .semicolon ∉ l.symbols → (∀ l ∈ tighter, .semicolon ∉ l.symbols) → ∀ left : Expr,
    R (chain n l tighter left) (chain k l tighter left)
  | 0, _, hk, l, tighter, _, _, left =>
    h.dry (q := fun k => Parsing.chain k l tighter left) hk rfl
  | n + 1, _, hnk, l, tighter, hl, htighter, left => by
    obtain ⟨k, rfl, hk⟩ := h.next hnk
    rw [Parsing.chain, Parsing.chain]
    refine h.bind (h.takeIf fun _ => inside_of_any hl) fun operator => ?_
    cases operator with
    | none => exact h.pure left
    | some operator =>
      refine h.bind (level hk tighter htighter) fun right => ?_
      exact h.bind (h.build _) fun built => chain hk hl htighter _
termination_by structural n => n

theorem unary : ∀ {n k : Nat}, F n k → R (unary n) (unary k)
  | 0, _, hk => h.dry hk rfl
  | n + 1, _, hnk => by
    obtain ⟨k, rfl, hk⟩ := h.next hnk
    rw [Parsing.unary, Parsing.unary]
    refine h.bind (h.takeIf fun _ => inside_of_any (by decide)) fun operator => ?_
    cases operator with
    | none => exact h.bind (primary hk) fun callee => calls hk callee
    | some operator => exact h.bind (unary hk) fun right => h.build _
termination_by structural n => n

theorem calls : ∀ {n k : Nat}, F n k → ∀ callee : Expr, R (calls n callee) (calls k callee)
  | 0, _, hk, callee => h.dry (q := fun k => Parsing.calls k callee) hk rfl
  | n + 1, _, hnk, callee => by
    obtain ⟨k, rfl, hk⟩ := h.next hnk
    rw [Parsing.calls, Parsing.calls]
    refine h.bind (h.take? (by decide)) fun paren => ?_
    cases paren with
    | none => exact h.pure callee
    | some paren =>
      refine h.bind (h.listBefore _ (arguments hk 0)) fun args => ?_
      exact h.bind (h.expect (by decide) _) fun close => h.bind (h.build _) fun built => calls hk _
termination_by structural n => n

theorem arguments : ∀ {n k : Nat}, F n k → ∀ count : Nat,
    R (arguments n count) (arguments k count)
  | 0, _, hk, count => h.dry (q := fun k => Parsing.arguments k count) hk rfl
  | n + 1, _, hnk, count => by
    obtain ⟨k, rfl, hk⟩ := h.next hnk
    rw [Parsing.arguments, Parsing.arguments]
    refine h.bind (h.limit h.tooManyArguments count) fun _ => ?_
    refine h.bind (expression hk) fun first => ?_
    refine h.bind (h.take? (by decide)) fun comma => ?_
    cases comma with
    | none => exact h.pure [first]
    | some comma => exact h.bind (arguments hk (count + 1)) fun others => h.pure _
termination_by structural n => n

theorem primary : ∀ {n k : Nat}, F n k → R (primary n) (primary k)
  | 0, _, hk => h.dry hk rfl
  | n + 1, _, hnk => by
    obtain ⟨k, rfl, hk⟩ := h.next hnk
    rw [Parsing.primary, Parsing.primary]
    refine h.bind (h.takeIf fun _ => inside_of_literal) fun literal => ?_
    cases literal with
    | some t => exact h.build _
    | none =>
      refine h.bind (h.takeIf fun _ ht => inside_of_identifier (eq_of_beq ht)) fun name => ?_
      cases name with
      | some name => exact h.build _
      | none =>
        refine h.bind (h.take? (by decide)) fun paren => ?_
        cases paren with
        | none => exact h.fail .expression
        | some paren =>
          refine h.bind (expression hk) fun inner => ?_
          exact h.bind (h.expect (by decide) _) fun close => h.build _
termination_by structural n => n

end

end ClosedExpr

/-! ## Statements -/

namespace ClosedStmt

variable {R : ⦃α : Type⦄ → m α → m' α → Prop} {F : Nat → Nat → Prop}
  (h : ClosedStmt R F)

include h

theorem expect (symbol : Symbol) (cause : SyntaxCause) :
    R (expect symbol cause) (expect symbol cause) := by
  refine h.bind (h.takeAny _) fun found => ?_
  cases found with
  | none => exact h.fail cause
  | some t => exact h.pure t

section

variable {n k : Nat} (hk : F n k)
include hk

/-- An expression up to its semicolon is a sequence of related readers. -/
theorem terminated (cause : SyntaxCause) : R (terminated n cause) (terminated k cause) :=
  h.bind (h.expression hk) fun e => h.bind (h.expect _ _) fun _ => h.pure e

theorem expressionUnless (stop : Symbol) :
    R (expressionUnless n stop) (expressionUnless k stop) :=
  h.toClosed.expressionUnless (h.expression hk) stop

theorem initialValue : R (initialValue n) (initialValue k) :=
  h.toClosed.initialValue (h.expression hk)

theorem variableDecl : R (variableDecl n) (variableDecl k) := by
  refine h.bind (h.expectName _) fun name => ?_
  exact h.bind (h.initialValue hk) fun init => h.bind (h.expect _ _) fun _ => h.pure _

theorem initializer : R (initializer n) (initializer k) := by
  refine h.bind (h.takeAny _) fun close => ?_
  cases close with
  | some close => exact h.pure none
  | none =>
    refine h.bind (h.takeAny _) fun var => ?_
    cases var with
    | some var => exact h.bind (variableDecl h hk) fun decl => h.pure (some decl)
    | none => exact h.bind (terminated h hk _) fun e => h.pure _

end

theorem conditionOr (condition : Option Expr) :
    R (conditionOr condition) (conditionOr condition) := by
  cases condition with
  | some condition => exact h.pure condition
  | none => exact h.build _

mutual

/-- Declarations are related. -/
theorem declaration : ∀ {n k : Nat}, F n k → R (declaration n) (declaration k)
  | 0, _, hk => h.dry hk rfl
  | n + 1, _, hnk => by
    obtain ⟨k, rfl, hk⟩ := h.next hnk
    rw [Parsing.declaration, Parsing.declaration]
    refine h.bind (h.takeAny _) fun function => ?_
    cases function with
    | some function => exact functionDecl hk
    | none =>
      refine h.bind (h.takeAny _) fun var => ?_
      cases var with
      | some var => exact variableDecl h hk
      | none => exact statement hk
termination_by structural n => n

theorem functionDecl : ∀ {n k : Nat}, F n k → R (functionDecl n) (functionDecl k)
  | 0, _, hk => h.dry hk rfl
  | n + 1, _, hnk => by
    obtain ⟨k, rfl, hk⟩ := h.next hnk
    rw [Parsing.functionDecl, Parsing.functionDecl]
    refine h.bind (h.expectName _) fun name => h.bind (h.expect _ _) fun paren => ?_
    refine h.bind (h.parameterList h.toFuels h.tooManyParameters hk) fun params => ?_
    refine h.bind (h.expect _ _) fun close => h.bind (h.expect _ _) fun start => ?_
    exact h.bind (block hk) fun body => h.bind h.newFunction fun id => h.pure _
termination_by structural n => n

theorem statement : ∀ {n k : Nat}, F n k → R (statement n) (statement k)
  | 0, _, hk => h.dry hk rfl
  | n + 1, _, hnk => by
    obtain ⟨k, rfl, hk⟩ := h.next hnk
    rw [Parsing.statement, Parsing.statement]
    refine h.bind (h.takeAny _) fun first => ?_
    cases first with
    | none => exact h.bind (terminated h hk _) fun e => h.pure _
    | some t =>
      dsimp only
      split
      · exact forLoop hk
      · exact branch hk
      · exact h.bind (terminated h hk _) fun e => h.pure _
      · exact h.bind (h.expressionUnless hk _) fun value => h.bind (h.expect _ _) fun _ => h.pure _
      · exact whileLoop hk
      · exact h.bind (block hk) fun body => h.pure _
termination_by structural n => n

theorem forLoop : ∀ {n k : Nat}, F n k → R (forLoop n) (forLoop k)
  | 0, _, hk => h.dry hk rfl
  | n + 1, _, hnk => by
    obtain ⟨k, rfl, hk⟩ := h.next hnk
    rw [Parsing.forLoop, Parsing.forLoop]
    refine h.bind (h.expect _ _) fun paren => h.bind (initializer h hk) fun init => ?_
    refine h.bind (h.expressionUnless hk _) fun condition => h.bind (h.expect _ _) fun _ => ?_
    refine h.bind (h.expressionUnless hk _) fun increment => h.bind (h.expect _ _) fun _ => ?_
    refine h.bind (statement hk) fun body => ?_
    exact h.bind (conditionOr h condition) fun test => h.pure _
termination_by structural n => n

theorem branch : ∀ {n k : Nat}, F n k → R (branch n) (branch k)
  | 0, _, hk => h.dry hk rfl
  | n + 1, _, hnk => by
    obtain ⟨k, rfl, hk⟩ := h.next hnk
    rw [Parsing.branch, Parsing.branch]
    refine h.bind (h.expect _ _) fun paren => h.bind (h.expression hk) fun condition => ?_
    refine h.bind (h.expect _ _) fun close => h.bind (statement hk) fun thenBranch => ?_
    refine h.bind (h.takeAny _) fun otherwise => ?_
    cases otherwise with
    | none => exact h.pure _
    | some otherwise => exact h.bind (statement hk) fun elseBranch => h.pure _
termination_by structural n => n

theorem whileLoop : ∀ {n k : Nat}, F n k → R (whileLoop n) (whileLoop k)
  | 0, _, hk => h.dry hk rfl
  | n + 1, _, hnk => by
    obtain ⟨k, rfl, hk⟩ := h.next hnk
    rw [Parsing.whileLoop, Parsing.whileLoop]
    refine h.bind (h.expect _ _) fun paren => h.bind (h.expression hk) fun condition => ?_
    exact h.bind (h.expect _ _) fun close => h.bind (statement hk) fun body => h.pure _
termination_by structural n => n

/-- So are blocks, in which a faulty declaration is dropped. -/
theorem block : ∀ {n k : Nat}, F n k → R (block n) (block k)
  | 0, _, hk => h.dry hk rfl
  | n + 1, _, hnk => by
    obtain ⟨k, rfl, hk⟩ := h.next hnk
    rw [Parsing.block, Parsing.block]
    refine h.bind h.peek? fun next => ?_
    cases next with
    | none => exact h.fail .blockEnd
    | some t =>
      dsimp only
      split
      · exact h.bind (h.expect _ _) fun close => h.pure []
      · refine h.bind (h.declared (declaration hk)) fun first => ?_
        exact h.bind (block hk) fun others => h.pure _
termination_by structural n => n

end

/-- **Where the small readers are related and sequences keep this, programs are related.** -/
theorem declarations : ∀ {n k : Nat}, F n k → R (declarations n) (declarations k)
  | 0, _, hk => h.dry hk rfl
  | n + 1, _, hnk => by
    obtain ⟨k, rfl, hk⟩ := h.next hnk
    rw [Parsing.declarations, Parsing.declarations]
    refine h.bind h.peek? fun next => ?_
    cases next with
    | none => exact h.pure []
    | some t =>
      refine h.bind (h.declared (declaration h hk)) fun first => ?_
      exact h.bind (declarations hk) fun others => h.pure _

end ClosedStmt

end Parsing

end Nya
