import Nya.Proofs.Parse.Numbers

/-!
# New numbers and lines

A relabelling gives new numbers to nodes and functions, and new lines to tokens. What a program
means does not depend on them. Here it acts on trees, and resolution commutes with it; for the
machine and the parser see `Relabel/Machine.lean` and `Relabel/Parse.lean`.
-/

namespace Nya

/-- New numbers for nodes and functions, and new lines. -/
structure Relabel where
  node : Nat → Nat
  function : Nat → Nat
  line : Nat → Nat

namespace Relabel

/-- The second relabelling, then the first. -/
def comp (ρ σ : Relabel) : Relabel :=
  ⟨ρ.node ∘ σ.node, ρ.function ∘ σ.function, ρ.line ∘ σ.line⟩

end Relabel

/-! ## Tokens -/

namespace Token

/-- The token on its new line. -/
def relabel (ρ : Relabel) (t : Token) : Token := { t with line := ρ.line t.line }

variable (ρ σ : Relabel) (t : Token)

@[simp] theorem kind_relabel : (t.relabel ρ).kind = t.kind := rfl

@[simp] theorem lexeme_relabel : (t.relabel ρ).lexeme = t.lexeme := rfl

@[simp] theorem isSymbol_relabel (s : Symbol) : (t.relabel ρ).isSymbol s = t.isSymbol s := rfl

@[simp] theorem symbol?_relabel : (t.relabel ρ).symbol? = t.symbol? := rfl

@[simp] theorem isEof_relabel : (t.relabel ρ).isEof = t.isEof := rfl

/-- A token on a new line, and then on another. -/
theorem relabel_relabel : (t.relabel σ).relabel ρ = t.relabel (ρ.comp σ) := rfl

end Token

/-! ## Trees -/

/-- The reference with its new number, its name on the new line. -/
def Reference.relabel (ρ : Relabel) (r : Reference) : Reference :=
  { r with id := ρ.node r.id, name := r.name.relabel ρ }

mutual

/-- The expression with its new numbers and lines. -/
def Expr.relabel (ρ : Relabel) : Expr → Expr
  | .literal id value => .literal (ρ.node id) value
  | .read target => .read (target.relabel ρ)
  | .assign target value => .assign (target.relabel ρ) (value.relabel ρ)
  | .unary id operator right => .unary (ρ.node id) (operator.relabel ρ) (right.relabel ρ)
  | .binary id left operator right =>
    .binary (ρ.node id) (left.relabel ρ) (operator.relabel ρ) (right.relabel ρ)
  | .logical id left operator right =>
    .logical (ρ.node id) (left.relabel ρ) (operator.relabel ρ) (right.relabel ρ)
  | .group id inner => .group (ρ.node id) (inner.relabel ρ)
  | .call id callee arguments paren =>
    .call (ρ.node id) (callee.relabel ρ) (Expr.relabelAll ρ arguments) (paren.relabel ρ)

/-- The same of a list of expressions. -/
def Expr.relabelAll (ρ : Relabel) : List Expr → List Expr
  | [] => []
  | e :: es => e.relabel ρ :: Expr.relabelAll ρ es

end

mutual

/-- The statement with its new numbers and lines. -/
def Stmt.relabel (ρ : Relabel) : Stmt → Stmt
  | .expression e => .expression (e.relabel ρ)
  | .print e => .print (e.relabel ρ)
  | .var name init => .var (name.relabel ρ) (init.map (Expr.relabel ρ))
  | .block body => .block (Stmt.relabelAll ρ body)
  | .branch condition thenBranch none =>
    .branch (condition.relabel ρ) (thenBranch.relabel ρ) none
  | .branch condition thenBranch (some elseBranch) =>
    .branch (condition.relabel ρ) (thenBranch.relabel ρ) (some (elseBranch.relabel ρ))
  | .loop condition body => .loop (condition.relabel ρ) (body.relabel ρ)
  | .function id name params body =>
    .function (ρ.function id) (name.relabel ρ) (params.map (Token.relabel ρ))
      (Stmt.relabelAll ρ body)
  | .ret keyword value => .ret (keyword.relabel ρ) (value.map (Expr.relabel ρ))

/-- The same of a list of statements. -/
def Stmt.relabelAll (ρ : Relabel) : List Stmt → List Stmt
  | [] => []
  | s :: ss => s.relabel ρ :: Stmt.relabelAll ρ ss

end

/-- The declaration with its new numbers and lines. -/
def Declaration.relabel (ρ : Relabel) (d : Declaration) : Declaration :=
  ⟨ρ.function d.id, d.name.relabel ρ, d.params.map (Token.relabel ρ), Stmt.relabelAll ρ d.body⟩

theorem Expr.relabelAll_eq_map (ρ : Relabel) (es : List Expr) :
    Expr.relabelAll ρ es = es.map (Expr.relabel ρ) := by
  induction es with
  | nil => rfl
  | cons e es ih => rw [relabelAll, ih, List.map_cons]

theorem Stmt.relabelAll_eq_map (ρ : Relabel) (ss : List Stmt) :
    Stmt.relabelAll ρ ss = ss.map (Stmt.relabel ρ) := by
  induction ss with
  | nil => rfl
  | cons s ss ih => rw [relabelAll, ih, List.map_cons]

/-- A conditional is relabelled with its second branch, if there is one. -/
theorem Stmt.relabel_branch (ρ : Relabel) (c : Expr) (t : Stmt) (e : Option Stmt) :
    (Stmt.branch c t e).relabel ρ =
      .branch (c.relabel ρ) (t.relabel ρ) (e.map (Stmt.relabel ρ)) := by
  cases e <;> rw [relabel] <;> rfl

/-! ## One relabelling after another -/

mutual

/-- Two relabellings, one after the other, are one. -/
theorem Expr.relabel_relabel (ρ σ : Relabel) : ∀ e : Expr,
    (e.relabel σ).relabel ρ = e.relabel (ρ.comp σ)
  | .literal _ _ | .read _ => rfl
  | .assign target value => by
    rw [Expr.relabel, Expr.relabel, Expr.relabel, Expr.relabel_relabel ρ σ value]
    rfl
  | .unary _ _ right => by
    rw [Expr.relabel, Expr.relabel, Expr.relabel, Expr.relabel_relabel ρ σ right]
    rfl
  | .binary _ left _ right | .logical _ left _ right => by
    rw [Expr.relabel, Expr.relabel, Expr.relabel, Expr.relabel_relabel ρ σ left,
      Expr.relabel_relabel ρ σ right]
    rfl
  | .group _ inner => by
    rw [Expr.relabel, Expr.relabel, Expr.relabel, Expr.relabel_relabel ρ σ inner]
    rfl
  | .call _ callee arguments _ => by
    rw [Expr.relabel, Expr.relabel, Expr.relabel, Expr.relabel_relabel ρ σ callee,
      Expr.relabelAll_relabelAll ρ σ arguments]
    rfl

theorem Expr.relabelAll_relabelAll (ρ σ : Relabel) : ∀ es : List Expr,
    Expr.relabelAll ρ (Expr.relabelAll σ es) = Expr.relabelAll (ρ.comp σ) es
  | [] => rfl
  | e :: es => by
    rw [Expr.relabelAll, Expr.relabelAll, Expr.relabelAll, Expr.relabel_relabel ρ σ e,
      Expr.relabelAll_relabelAll ρ σ es]

end

mutual

/-- The same of statements, the functions in them included. -/
theorem Stmt.relabel_relabel (ρ σ : Relabel) : ∀ s : Stmt,
    (s.relabel σ).relabel ρ = s.relabel (ρ.comp σ)
  | .expression e | .print e => by
    rw [Stmt.relabel, Stmt.relabel, Stmt.relabel, Expr.relabel_relabel]
  | .var name init => by
    cases init <;> simp [Stmt.relabel, Token.relabel_relabel, Expr.relabel_relabel]
  | .block body => by
    rw [Stmt.relabel, Stmt.relabel, Stmt.relabel, Stmt.relabelAll_relabelAll ρ σ body]
  | .branch c t none => by
    rw [Stmt.relabel, Stmt.relabel, Stmt.relabel, Expr.relabel_relabel, Stmt.relabel_relabel ρ σ t]
  | .branch c t (some e) => by
    rw [Stmt.relabel, Stmt.relabel, Stmt.relabel, Expr.relabel_relabel, Stmt.relabel_relabel ρ σ t,
      Stmt.relabel_relabel ρ σ e]
  | .loop c body => by
    rw [Stmt.relabel, Stmt.relabel, Stmt.relabel, Expr.relabel_relabel,
      Stmt.relabel_relabel ρ σ body]
  | .function id name params body => by
    rw [Stmt.relabel, Stmt.relabel, Stmt.relabel, Stmt.relabelAll_relabelAll ρ σ body,
      List.map_map]
    rfl
  | .ret keyword value => by
    cases value <;> simp [Stmt.relabel, Token.relabel_relabel, Expr.relabel_relabel]

theorem Stmt.relabelAll_relabelAll (ρ σ : Relabel) : ∀ ss : List Stmt,
    Stmt.relabelAll ρ (Stmt.relabelAll σ ss) = Stmt.relabelAll (ρ.comp σ) ss
  | [] => rfl
  | s :: ss => by
    rw [Stmt.relabelAll, Stmt.relabelAll, Stmt.relabelAll, Stmt.relabel_relabel ρ σ s,
      Stmt.relabelAll_relabelAll ρ σ ss]

end

/-! ## What matters of a relabelling -/

/-- The relabellings agree on nodes and lines. -/
def Relabel.Agree (ρ σ : Relabel) : Prop := ρ.node = σ.node ∧ ρ.line = σ.line

/-- Only the lines matter to a token. -/
theorem Token.relabel_congr {ρ σ : Relabel} (h : ρ.Agree σ) (t : Token) :
    t.relabel ρ = t.relabel σ := by
  rw [relabel, relabel, h.2]

theorem Reference.relabel_congr {ρ σ : Relabel} (h : ρ.Agree σ) (r : Reference) :
    r.relabel ρ = r.relabel σ := by
  rw [relabel, relabel, h.1, Token.relabel_congr h]

mutual

/-- An expression declares no function, so the numbers of functions do not matter to it. -/
theorem Expr.relabel_congr {ρ σ : Relabel} (h : ρ.Agree σ) : ∀ e : Expr,
    e.relabel ρ = e.relabel σ
  | .literal id value => by rw [Expr.relabel, Expr.relabel, h.1]
  | .read target => by rw [Expr.relabel, Expr.relabel, Reference.relabel_congr h]
  | .assign target value => by
    rw [Expr.relabel, Expr.relabel, Reference.relabel_congr h, Expr.relabel_congr h value]
  | .unary _ _ right => by
    rw [Expr.relabel, Expr.relabel, h.1, Token.relabel_congr h, Expr.relabel_congr h right]
  | .binary _ left _ right | .logical _ left _ right => by
    rw [Expr.relabel, Expr.relabel, h.1, Token.relabel_congr h, Expr.relabel_congr h left,
      Expr.relabel_congr h right]
  | .group _ inner => by rw [Expr.relabel, Expr.relabel, h.1, Expr.relabel_congr h inner]
  | .call _ callee arguments _ => by
    rw [Expr.relabel, Expr.relabel, h.1, Token.relabel_congr h, Expr.relabel_congr h callee,
      Expr.relabelAll_congr h arguments]

theorem Expr.relabelAll_congr {ρ σ : Relabel} (h : ρ.Agree σ) : ∀ es : List Expr,
    Expr.relabelAll ρ es = Expr.relabelAll σ es
  | [] => rfl
  | e :: es => by
    rw [Expr.relabelAll, Expr.relabelAll, Expr.relabel_congr h e, Expr.relabelAll_congr h es]

end

theorem Expr.relabel_congr_option {ρ σ : Relabel} (h : ρ.Agree σ) (e : Option Expr) :
    e.map (Expr.relabel ρ) = e.map (Expr.relabel σ) :=
  congrArg (Option.map · e) (funext (Expr.relabel_congr h))

mutual

/-- Of the new numbers of functions only those in the statement matter. -/
theorem Stmt.relabel_congr {ρ σ : Relabel} (h : ρ.Agree σ) : ∀ {s : Stmt},
    (∀ i ∈ s.functionNumbers, ρ.function i = σ.function i) → s.relabel ρ = s.relabel σ
  | .expression e, _ | .print e, _ => by rw [Stmt.relabel, Stmt.relabel, Expr.relabel_congr h]
  | .var name init, _ => by
    rw [Stmt.relabel, Stmt.relabel, Token.relabel_congr h, Expr.relabel_congr_option h]
  | .block body, hf => by
    rw [Stmt.relabel, Stmt.relabel, Stmt.relabelAll_congr h hf]
  | .branch c t none, hf => by
    have ht : t.relabel ρ = t.relabel σ := Stmt.relabel_congr h hf
    rw [Stmt.relabel, Stmt.relabel, Expr.relabel_congr h, ht]
  | .branch c t (some e), hf => by
    rw [Stmt.relabel, Stmt.relabel, Expr.relabel_congr h,
      Stmt.relabel_congr h (fun i hi => hf i (List.mem_append_left _ hi)),
      Stmt.relabel_congr h (fun i hi => hf i (List.mem_append_right _ hi))]
  | .loop c body, hf => by
    have hbody : body.relabel ρ = body.relabel σ := Stmt.relabel_congr h hf
    rw [Stmt.relabel, Stmt.relabel, Expr.relabel_congr h, hbody]
  | .function id name params body, hf => by
    rw [Stmt.relabel, Stmt.relabel, Token.relabel_congr h,
      hf id (List.mem_append_right _ (List.mem_singleton.mpr rfl)),
      Stmt.relabelAll_congr h (fun i hi => hf i (List.mem_append_left _ hi)),
      funext (Token.relabel_congr h)]
  | .ret keyword value, _ => by
    rw [Stmt.relabel, Stmt.relabel, Token.relabel_congr h, Expr.relabel_congr_option h]

/-- It is enough that the relabellings agree on the functions that are declared. -/
theorem Stmt.relabelAll_congr {ρ σ : Relabel} (h : ρ.Agree σ) : ∀ {ss : List Stmt},
    (∀ i ∈ Stmt.functionNumbersAll ss, ρ.function i = σ.function i) →
    Stmt.relabelAll ρ ss = Stmt.relabelAll σ ss
  | [], _ => rfl
  | s :: ss, hf => by
    rw [Stmt.relabelAll, Stmt.relabelAll,
      Stmt.relabel_congr h (fun i hi => hf i (List.mem_append_left _ hi)),
      Stmt.relabelAll_congr h (fun i hi => hf i (List.mem_append_right _ hi))]

end

/-! ## Resolution -/

/-- A fault with its token on the new line. -/
def ScopeError.relabel (ρ : Relabel) (e : ScopeError) : ScopeError := ⟨e.token.relabel ρ, e.cause⟩

mutual

/-- Resolution looks names up, and names are not relabelled. -/
theorem Expr.resolve_relabel (ρ : Relabel) (scopes : Scopes) : ∀ e : Expr,
    (e.relabel ρ).resolve scopes = (e.resolve scopes).relabel ρ
  | .literal _ _ | .read _ => rfl
  | .assign _ value => by
    rw [Expr.relabel, Expr.resolve, Expr.resolve, Expr.relabel, Expr.resolve_relabel ρ scopes value]
    rfl
  | .unary _ _ right => by
    rw [Expr.relabel, Expr.resolve, Expr.resolve, Expr.relabel, Expr.resolve_relabel ρ scopes right]
  | .binary _ left _ right | .logical _ left _ right => by
    rw [Expr.relabel, Expr.resolve, Expr.resolve, Expr.relabel, Expr.resolve_relabel ρ scopes left,
      Expr.resolve_relabel ρ scopes right]
  | .group _ inner => by
    rw [Expr.relabel, Expr.resolve, Expr.resolve, Expr.relabel, Expr.resolve_relabel ρ scopes inner]
  | .call _ callee arguments _ => by
    rw [Expr.relabel, Expr.resolve, Expr.resolve, Expr.relabel,
      Expr.resolve_relabel ρ scopes callee, Expr.resolveAll_relabelAll ρ scopes arguments]

theorem Expr.resolveAll_relabelAll (ρ : Relabel) (scopes : Scopes) : ∀ es : List Expr,
    Expr.resolveAll scopes (Expr.relabelAll ρ es) = Expr.relabelAll ρ (Expr.resolveAll scopes es)
  | [] => rfl
  | e :: es => by
    rw [Expr.relabelAll, Expr.resolveAll, Expr.resolveAll, Expr.relabelAll,
      Expr.resolve_relabel ρ scopes e, Expr.resolveAll_relabelAll ρ scopes es]

end

mutual

/-- The errors of a relabelled expression are the errors on the new lines. -/
theorem Expr.scopeErrors_relabel (ρ : Relabel) (scopes : Scopes) : ∀ e : Expr,
    (e.relabel ρ).scopeErrors scopes = (e.scopeErrors scopes).map (ScopeError.relabel ρ)
  | .literal _ _ => rfl
  | .read target => by
    cases hp : scopes.isPending target.name.lexeme <;>
      simp [Expr.relabel, Expr.scopeErrors, Reference.relabel, ScopeError.relabel, hp]
  | .assign _ value => Expr.scopeErrors_relabel ρ scopes value
  | .unary _ _ right => Expr.scopeErrors_relabel ρ scopes right
  | .binary _ left _ right | .logical _ left _ right => by
    rw [Expr.relabel, Expr.scopeErrors, Expr.scopeErrors, List.map_append,
      Expr.scopeErrors_relabel ρ scopes left, Expr.scopeErrors_relabel ρ scopes right]
  | .group _ inner => Expr.scopeErrors_relabel ρ scopes inner
  | .call _ callee arguments _ => by
    rw [Expr.relabel, Expr.scopeErrors, Expr.scopeErrors, List.map_append,
      Expr.scopeErrors_relabel ρ scopes callee, Expr.scopeErrorsAll_relabelAll ρ scopes arguments]

theorem Expr.scopeErrorsAll_relabelAll (ρ : Relabel) (scopes : Scopes) : ∀ es : List Expr,
    Expr.scopeErrorsAll scopes (Expr.relabelAll ρ es) =
      (Expr.scopeErrorsAll scopes es).map (ScopeError.relabel ρ)
  | [] => rfl
  | e :: es => by
    rw [Expr.relabelAll, Expr.scopeErrorsAll, Expr.scopeErrorsAll, List.map_append,
      Expr.scopeErrors_relabel ρ scopes e, Expr.scopeErrorsAll_relabelAll ρ scopes es]

end

theorem Expr.scopeErrorsOption_relabel (ρ : Relabel) (scopes : Scopes) (e : Option Expr) :
    Expr.scopeErrorsOption scopes (e.map (Expr.relabel ρ)) =
      (Expr.scopeErrorsOption scopes e).map (ScopeError.relabel ρ) := by
  cases e with
  | none => rfl
  | some e => exact Expr.scopeErrors_relabel ρ scopes e

/-- A second declaration is one on any line. -/
theorem Scopes.declareErrors_relabel (ρ : Relabel) (scopes : Scopes) (name : Token) :
    scopes.declareErrors (name.relabel ρ) =
      (scopes.declareErrors name).map (ScopeError.relabel ρ) := by
  cases h : scopes.hasInner name.lexeme <;> simp [declareErrors, ScopeError.relabel, h]

/-- A statement leaves the same scopes behind, whatever its numbers and lines. -/
@[simp] theorem Stmt.after_relabel (ρ : Relabel) : ∀ (scopes : Scopes) (s : Stmt),
    (s.relabel ρ).after scopes = s.after scopes
  | scopes, .var _ _ | scopes, .function _ _ _ _ => rfl
  | scopes, .branch _ t none => by rw [relabel, after, after, after_relabel ρ scopes t]
  | scopes, .branch _ t (some e) => by
    rw [relabel, after, after, after_relabel ρ scopes t, after_relabel ρ _ e]
  | scopes, .loop _ body => by rw [relabel, after, after, after_relabel ρ scopes body]
  | scopes, .expression _ | scopes, .print _ | scopes, .block _ | scopes, .ret _ _ => rfl

/-- A scope holds names, not lines. -/
theorem parameterScope_relabel (ρ : Relabel) (scopes : Scopes) (params : List Token) :
    parameterScope scopes (params.map (Token.relabel ρ)) = parameterScope scopes params := by
  rw [parameterScope, List.foldl_map]
  rfl

theorem parameterErrors_relabel (ρ : Relabel) : ∀ (params : List Token) (scopes : Scopes),
    parameterErrors scopes (params.map (Token.relabel ρ)) =
      (parameterErrors scopes params).map (ScopeError.relabel ρ)
  | [], _ => rfl
  | param :: params, scopes => by
    rw [List.map_cons, parameterErrors, parameterErrors, List.map_append,
      Scopes.declareErrors_relabel, Token.lexeme_relabel, parameterErrors_relabel ρ params]

mutual

/-- Resolution goes through a statement in the same scopes, whatever its numbers and lines. -/
theorem Stmt.resolve_relabel (ρ : Relabel) : ∀ (scopes : Scopes) (s : Stmt),
    (s.relabel ρ).resolve scopes = (s.resolve scopes).relabel ρ
  | scopes, .expression e | scopes, .print e => by
    rw [Stmt.relabel, Stmt.resolve, Stmt.resolve, Stmt.relabel, Expr.resolve_relabel]
  | scopes, .var name init => by
    cases init <;> simp [Stmt.relabel, Stmt.resolve, Expr.resolve_relabel]
  | scopes, .block body => by
    rw [Stmt.relabel, Stmt.resolve, Stmt.resolve, Stmt.relabel, Stmt.resolveAll_relabelAll ρ _ body]
  | scopes, .branch c t none => by
    rw [Stmt.relabel, Stmt.resolve, Stmt.resolve, Stmt.relabel, Expr.resolve_relabel,
      Stmt.resolve_relabel ρ scopes t]
  | scopes, .branch c t (some e) => by
    rw [Stmt.relabel, Stmt.resolve, Stmt.resolve, Stmt.relabel, Expr.resolve_relabel,
      Stmt.resolve_relabel ρ scopes t, Stmt.after_relabel, Stmt.resolve_relabel ρ _ e]
  | scopes, .loop c body => by
    rw [Stmt.relabel, Stmt.resolve, Stmt.resolve, Stmt.relabel, Expr.resolve_relabel,
      Stmt.resolve_relabel ρ scopes body]
  | scopes, .function id name params body => by
    rw [Stmt.relabel, Stmt.resolve, Stmt.resolve, Stmt.relabel, parameterScope_relabel,
      Token.lexeme_relabel, Stmt.resolveAll_relabelAll ρ _ body]
  | scopes, .ret keyword value => by
    cases value <;> simp [Stmt.relabel, Stmt.resolve, Expr.resolve_relabel]

theorem Stmt.resolveAll_relabelAll (ρ : Relabel) : ∀ (scopes : Scopes) (ss : List Stmt),
    Stmt.resolveAll scopes (Stmt.relabelAll ρ ss) = Stmt.relabelAll ρ (Stmt.resolveAll scopes ss)
  | _, [] => rfl
  | scopes, s :: ss => by
    rw [Stmt.relabelAll, Stmt.resolveAll, Stmt.resolveAll, Stmt.relabelAll,
      Stmt.resolve_relabel ρ scopes s, Stmt.after_relabel, Stmt.resolveAll_relabelAll ρ _ ss]

end

mutual

/-- The errors of a relabelled statement are the errors on the new lines. -/
theorem Stmt.scopeErrors_relabel (ρ : Relabel) : ∀ (inFunction : Bool) (scopes : Scopes) (s : Stmt),
    (s.relabel ρ).scopeErrors inFunction scopes =
      (s.scopeErrors inFunction scopes).map (ScopeError.relabel ρ)
  | _, scopes, .expression e | _, scopes, .print e => Expr.scopeErrors_relabel ρ scopes e
  | _, scopes, .var name init => by
    rw [Stmt.relabel, Stmt.scopeErrors, Stmt.scopeErrors, List.map_append,
      Scopes.declareErrors_relabel, Token.lexeme_relabel, Expr.scopeErrorsOption_relabel]
  | inFunction, scopes, .block body => Stmt.scopeErrorsAll_relabelAll ρ inFunction _ body
  | inFunction, scopes, .branch c t none => by
    rw [Stmt.relabel, Stmt.scopeErrors, Stmt.scopeErrors, List.map_append,
      Expr.scopeErrors_relabel, Stmt.scopeErrors_relabel ρ inFunction scopes t]
  | inFunction, scopes, .branch c t (some e) => by
    rw [Stmt.relabel, Stmt.scopeErrors, Stmt.scopeErrors, List.map_append, List.map_append,
      Expr.scopeErrors_relabel, Stmt.scopeErrors_relabel ρ inFunction scopes t,
      Stmt.after_relabel, Stmt.scopeErrors_relabel ρ inFunction _ e]
  | inFunction, scopes, .loop c body => by
    rw [Stmt.relabel, Stmt.scopeErrors, Stmt.scopeErrors, List.map_append,
      Expr.scopeErrors_relabel, Stmt.scopeErrors_relabel ρ inFunction scopes body]
  | inFunction, scopes, .function id name params body => by
    simp only [Stmt.relabel, Stmt.scopeErrors, List.map_append, Scopes.declareErrors_relabel,
      Token.lexeme_relabel, parameterErrors_relabel, parameterScope_relabel,
      Stmt.scopeErrorsAll_relabelAll ρ true _ body]
  | inFunction, scopes, .ret keyword value => by
    rw [Stmt.relabel, Stmt.scopeErrors, Stmt.scopeErrors, List.map_append,
      Expr.scopeErrorsOption_relabel]
    cases inFunction <;> rfl

theorem Stmt.scopeErrorsAll_relabelAll (ρ : Relabel) : ∀ (inFunction : Bool) (scopes : Scopes)
    (ss : List Stmt),
    Stmt.scopeErrorsAll inFunction scopes (Stmt.relabelAll ρ ss) =
      (Stmt.scopeErrorsAll inFunction scopes ss).map (ScopeError.relabel ρ)
  | _, _, [] => rfl
  | inFunction, scopes, s :: ss => by
    rw [Stmt.relabelAll, Stmt.scopeErrorsAll, Stmt.scopeErrorsAll, List.map_append,
      Stmt.scopeErrors_relabel ρ inFunction scopes s, Stmt.after_relabel,
      Stmt.scopeErrorsAll_relabelAll ρ inFunction _ ss]

end

/-- **Resolution commutes with relabelling.** -/
theorem resolve_relabelAll (ρ : Relabel) (program : List Stmt) :
    resolve (Stmt.relabelAll ρ program) = Stmt.relabelAll ρ (resolve program) :=
  Stmt.resolveAll_relabelAll ρ [] program

/-- **The faults of a relabelled program are those of the program, relabelled.** -/
theorem scopeErrors_relabelAll (ρ : Relabel) (program : List Stmt) :
    scopeErrors (Stmt.relabelAll ρ program) =
      (scopeErrors program).map (ScopeError.relabel ρ) :=
  Stmt.scopeErrorsAll_relabelAll ρ false [] program

end Nya
