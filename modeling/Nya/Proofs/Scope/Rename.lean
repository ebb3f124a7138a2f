import Nya.Proofs.Scope.AlphaResolve

/-!
# Renaming a local

A site leads to the declaration of a local: a variable of a block or of a function body, or a
parameter. Renaming there gives the declaration a new name, and with it those references that
resolution has bound to it: a reference says by its depth which scope it means, and by its name
which declaration of the scope.

* `Site.rename_alpha`: in a program without faults a scope declares a name once, so renaming a
  declaration exchanges two names in one scope
-/

namespace Nya

/-! ## References to a scope -/

/-- The token under another name. -/
def Token.renamed (y : String) (token : Token) : Token := { token with lexeme := y }

/-- The reference under the name `y` if it means the `x` of the scope `n` scopes out. -/
def Reference.rebind (x y : String) (n : Nat) (r : Reference) : Reference :=
  if r.depth = some n ∧ r.name.lexeme = x then { r with name := r.name.renamed y } else r

/-- The expression with `y` for the `x` of the scope `n` scopes out. -/
def Expr.rebind (x y : String) (n : Nat) (e : Expr) : Expr :=
  e.mapReferences (Reference.rebind x y n)

mutual

/-- The statement with `y` for the `x` of the scope `n` scopes out, wherever it is referred to. -/
def Stmt.rebind (x y : String) (n : Nat) : Stmt → Stmt
  | .expression e => .expression (e.rebind x y n)
  | .print e => .print (e.rebind x y n)
  | .var name init => .var name (init.map (Expr.rebind x y n))
  | .block body => .block (Stmt.rebindAll x y (n + 1) body)
  | .branch condition thenBranch none =>
    .branch (condition.rebind x y n) (thenBranch.rebind x y n) none
  | .branch condition thenBranch (some elseBranch) =>
    .branch (condition.rebind x y n) (thenBranch.rebind x y n) (some (elseBranch.rebind x y n))
  | .loop condition body => .loop (condition.rebind x y n) (body.rebind x y n)
  | .function id name params body => .function id name params (Stmt.rebindAll x y (n + 1) body)
  | .ret keyword value => .ret keyword (value.map (Expr.rebind x y n))

/-- Statements with `y` for the `x` of the scope `n` scopes out, wherever it is referred to. -/
def Stmt.rebindAll (x y : String) (n : Nat) : List Stmt → List Stmt
  | [] => []
  | s :: ss => s.rebind x y n :: Stmt.rebindAll x y n ss

end

/-! ## Sites -/

/-- The way from a statement to the declaration of a local in it. -/
inductive Site where
  /-- The variable declared by a statement of the block or of the function body. -/
  | var (index : Nat)
  /-- A parameter of the function. -/
  | param (index : Nat)
  /-- In a statement of the block or of the function body. -/
  | inside (index : Nat) (site : Site)
  | thenBranch (site : Site)
  | elseBranch (site : Site)
  | loopBody (site : Site)

/-- The variable that a statement declares. -/
def Stmt.variable? : Stmt → Option Token
  | .var name _ => some name
  | _ => none

/-- A declaration of a variable, under another name. -/
def Stmt.redeclare (y : String) : Stmt → Stmt
  | .var name init => .var (name.renamed y) init
  | s => s

namespace Site

/-- The name that is declared at a site. Functions are not declared at sites. -/
def declared? : Site → Stmt → Option Token
  | var i, .block body | var i, .function _ _ _ body => body[i]?.bind Stmt.variable?
  | param i, .function _ _ params _ => params[i]?
  | inside i site, .block body | inside i site, .function _ _ _ body =>
    body[i]?.bind site.declared?
  | thenBranch site, .branch _ s _ => site.declared? s
  | elseBranch site, .branch _ _ (some s) => site.declared? s
  | loopBody site, .loop _ s => site.declared? s
  | _, _ => none

/-- The statement with `y` for the `x` that is declared at a site, and for the references to it. -/
def rename (x y : String) : Site → Stmt → Stmt
  | var i, .block body => .block (Stmt.rebindAll x y 0 (body.modify i (Stmt.redeclare y)))
  | var i, .function id name params body =>
    .function id name params (Stmt.rebindAll x y 0 (body.modify i (Stmt.redeclare y)))
  | param i, .function id name params body =>
    .function id name (params.modify i (Token.renamed y)) (Stmt.rebindAll x y 0 body)
  | inside i site, .block body => .block (body.modify i (site.rename x y))
  | inside i site, .function id name params body =>
    .function id name params (body.modify i (site.rename x y))
  | thenBranch site, .branch condition s other => .branch condition (site.rename x y s) other
  | elseBranch site, .branch condition other (some s) =>
    .branch condition other (some (site.rename x y s))
  | loopBody site, .loop condition s => .loop condition (site.rename x y s)
  | _, s => s

end Site

theorem Stmt.rebindAll_eq_map (x y : String) (n : Nat) (ss : List Stmt) :
    Stmt.rebindAll x y n ss = ss.map (Stmt.rebind x y n) := by
  induction ss with
  | nil => rfl
  | cons s ss ih => rw [Stmt.rebindAll, ih, List.map_cons]

/-- A variable that is declared in a sequence is declared there under the new name. -/
theorem Stmt.variable?_rebindAll {x y : String} {token : Token} {body : List Stmt} {i : Nat}
    (h : body[i]?.bind Stmt.variable? = some token) :
    (Stmt.rebindAll x y 0 (body.modify i (Stmt.redeclare y)))[i]?.bind Stmt.variable? =
      some (token.renamed y) := by
  obtain ⟨s, hs, htoken⟩ := Option.bind_eq_some_iff.mp h
  rw [Stmt.rebindAll_eq_map, List.getElem?_map, List.getElem?_modify_eq, hs]
  cases s with
  | var name init =>
    cases htoken
    rfl
  | _ => cases htoken

/-- A renaming inside of a statement is found where the declaration was found. -/
theorem Site.declared?_modify {x y : String} {token : Token} {site : Site} {body : List Stmt}
    {i : Nat} (ih : ∀ {s : Stmt}, site.declared? s = some token →
      site.declared? (site.rename x y s) = some (token.renamed y))
    (h : body[i]?.bind site.declared? = some token) :
    (body.modify i (site.rename x y))[i]?.bind site.declared? = some (token.renamed y) := by
  obtain ⟨s, hs, hsite⟩ := Option.bind_eq_some_iff.mp h
  rw [List.getElem?_modify_eq, hs]
  exact ih hsite

/-- After renaming, the site has a declaration of the new name. -/
theorem Site.declared?_rename {x y : String} {token : Token} {site : Site} {s : Stmt}
    (h : site.declared? s = some token) :
    site.declared? (site.rename x y s) = some (token.renamed y) := by
  induction site generalizing s with
  | var i =>
    cases s with
    | block body => exact Stmt.variable?_rebindAll h
    | function id name params body => exact Stmt.variable?_rebindAll h
    | _ => cases h
  | param i =>
    cases s with
    | function id name params body =>
      have hget : params[i]? = some token := h
      show (params.modify i (Token.renamed y))[i]? = some (token.renamed y)
      rw [List.getElem?_modify_eq, hget]
      rfl
    | _ => cases h
  | inside i site ih =>
    cases s with
    | block body => exact declared?_modify ih h
    | function id name params body => exact declared?_modify ih h
    | _ => cases h
  | thenBranch site ih =>
    cases s with
    | branch condition t e => exact ih h
    | _ => cases h
  | elseBranch site ih =>
    cases s with
    | branch condition t e =>
      cases e with
      | none => cases h
      | some e => exact ih h
    | _ => cases h
  | loopBody site ih =>
    cases s with
    | loop condition b => exact ih h
    | _ => cases h

/-! ## Exchanging names in one scope -/

/-- Only the scope `n` scopes out is marked. -/
def Marks.only (n : Nat) : Marks := fun k => k == n

@[simp] theorem Marks.only_self (n : Nat) : Marks.only n n = true := by simp [Marks.only]

/-- Under one more scope, the marked one is one further out. -/
@[simp] theorem Marks.push_only (n : Nat) : (Marks.only n).push false = Marks.only (n + 1) := by
  funext k
  cases k <;> simp [Marks.only]

/-- A marked scope under unmarked ones is the innermost. -/
theorem Marks.push_none_true : Marks.none.push true = Marks.only 0 := by
  funext k
  cases k <;> simp [Marks.only]

mutual

/-- Changes that agree on the references of an expression have the same outcome. -/
theorem Expr.mapReferences_congr {f g : Reference → Reference} : ∀ {e : Expr},
    (∀ r ∈ e.references, f r.2 = g r.2) → e.mapReferences f = e.mapReferences g
  | .literal _ _, _ => rfl
  | .read _, h => by simpa [Expr.mapReferences, Expr.references] using h
  | .assign _ e, h => by
    simp only [Expr.references, List.mem_append, or_imp, forall_and, List.mem_singleton,
      forall_eq] at h
    rw [Expr.mapReferences, Expr.mapReferences, h.2, Expr.mapReferences_congr h.1]
  | .unary _ _ e, h | .group _ e, h => by
    have he : e.mapReferences f = e.mapReferences g := Expr.mapReferences_congr h
    rw [Expr.mapReferences, Expr.mapReferences, he]
  | .binary _ l _ r, h | .logical _ l _ r, h => by
    simp only [Expr.references, List.mem_append, or_imp, forall_and] at h
    rw [Expr.mapReferences, Expr.mapReferences, Expr.mapReferences_congr h.1,
      Expr.mapReferences_congr h.2]
  | .call _ c es _, h => by
    simp only [Expr.references, List.mem_append, or_imp, forall_and] at h
    rw [Expr.mapReferences, Expr.mapReferences, Expr.mapReferences_congr h.1,
      Expr.mapReferencesAll_congr h.2]

theorem Expr.mapReferencesAll_congr {f g : Reference → Reference} : ∀ {es : List Expr},
    (∀ r ∈ Expr.referencesAll es, f r.2 = g r.2) →
    Expr.mapReferencesAll f es = Expr.mapReferencesAll g es
  | [], _ => rfl
  | e :: es, h => by
    simp only [Expr.referencesAll, List.mem_append, or_imp, forall_and] at h
    rw [Expr.mapReferencesAll, Expr.mapReferencesAll, Expr.mapReferences_congr h.1,
      Expr.mapReferencesAll_congr h.2]

end

section

variable {x y : String}

/-- A reference other than to the new name is bound anew just where the names are exchanged. -/
theorem Reference.rebind_eq_swapped {n : Nat} {r : Reference} (hy : r.name.lexeme ≠ y) :
    r.rebind x y n = r.swapped ⟨x, y⟩ (Marks.only n) := by
  obtain ⟨id, name, depth⟩ := r
  unfold Reference.rebind Reference.swapped Reference.mark
  cases depth with
  | none => simp
  | some d =>
    by_cases hd : d = n
    · subst hd
      by_cases hx : name.lexeme = x <;>
        simp_all [Token.swapped, Token.renamed, Swap.apply]
    · have hmark : Marks.only n d = false := by simpa [Marks.only] using hd
      simp [hd, hmark]

/-- In an expression without the new name, binding anew is exchanging the names in one scope. -/
theorem Expr.rebind_eq_swapped {n : Nat} {e : Expr} (hy : y ∉ e.names) :
    e.rebind x y n = e.swapped ⟨x, y⟩ (Marks.only n) := by
  refine Expr.mapReferences_congr fun r hr => Reference.rebind_eq_swapped fun hname => hy ?_
  exact List.mem_map.mpr ⟨r, hr, hname⟩

theorem Expr.map_rebind_eq_swapped {n : Nat} {e : Option Expr} (hy : y ∉ Expr.namesOption e) :
    e.map (Expr.rebind x y n) = e.map (Expr.swapped ⟨x, y⟩ (Marks.only n)) := by
  cases e with
  | none => rfl
  | some e => exact congrArg some (Expr.rebind_eq_swapped hy)

/-- The names that a statement declares in the scope it stands in. -/
def Stmt.bound : Stmt → List String
  | .var name _ | .function _ name _ _ => [name.lexeme]
  | .branch _ thenBranch none => thenBranch.bound
  | .branch _ thenBranch (some elseBranch) => thenBranch.bound ++ elseBranch.bound
  | .loop _ body => body.bound
  | .expression _ | .print _ | .block _ | .ret _ _ => []

/-- A name that the scope does not exchange, or that is neither of the two, stays. -/
theorem Swap.apply_only_zero {n : Nat} {name : String} (hy : y ≠ name) (hx : n = 0 → x ≠ name) :
    (Swap.mk x y).apply (Marks.only n 0) name = name := by
  cases n with
  | zero => exact Swap.apply_of_ne ⟨x, y⟩ (Ne.symm (hx rfl)) (Ne.symm hy) _
  | succ n => rfl

mutual

/--
Renaming the references to a scope exchanges the names in it, if the statement does not itself
declare the name there.
-/
theorem Stmt.rebind_alpha : ∀ {n : Nat} {s : Stmt}, y ∉ s.names → (n = 0 → x ∉ s.bound) →
    s.Alpha ⟨x, y⟩ (Marks.only n) (s.rebind x y n)
  | n, .expression e, hy, _ => by
    rw [Stmt.rebind, Expr.rebind_eq_swapped hy]
    exact .expression _ e
  | n, .print e, hy, _ => by
    rw [Stmt.rebind, Expr.rebind_eq_swapped hy]
    exact .print _ e
  | n, .var name init, hy, hx => by
    simp only [Stmt.names, List.mem_cons, not_or] at hy
    have hname : name.swapped ⟨x, y⟩ (Marks.only n 0) = name := by
      rw [Token.swapped, Swap.apply_only_zero hy.1 (by simpa [Stmt.bound] using hx)]
    have h : Stmt.Alpha ⟨x, y⟩ (Marks.only n) (.var name init) _ := .var _ name init
    rwa [hname, ← Expr.map_rebind_eq_swapped hy.2] at h
  | n, .block body, hy, _ => by
    -- seen from inside the block, the scope is one scope further out
    have hbody : Stmt.AlphaAll ⟨x, y⟩ (Marks.only (n + 1)) body _ :=
      Stmt.rebindAll_alpha hy (by simp)
    exact .block false (by simpa using hbody)
  | n, .branch condition t none, hy, hx => by
    simp only [Stmt.names, List.mem_append, not_or] at hy
    rw [Stmt.rebind, Expr.rebind_eq_swapped hy.1]
    exact .branch condition (Stmt.rebind_alpha hy.2 hx)
  | n, .branch condition t (some e), hy, hx => by
    simp only [Stmt.names, List.mem_append, not_or] at hy
    simp only [Stmt.bound, List.mem_append, not_or] at hx
    rw [Stmt.rebind, Expr.rebind_eq_swapped hy.1.1]
    exact .branchElse condition (Stmt.rebind_alpha hy.1.2 fun hn => (hx hn).1)
      (Stmt.rebind_alpha hy.2 fun hn => (hx hn).2)
  | n, .loop condition b, hy, hx => by
    simp only [Stmt.names, List.mem_append, not_or] at hy
    rw [Stmt.rebind, Expr.rebind_eq_swapped hy.1]
    exact .loop condition (Stmt.rebind_alpha hy.2 hx)
  | n, .function id name params body, hy, hx => by
    simp only [Stmt.names, List.mem_cons, List.mem_append, not_or] at hy
    have hname := Swap.apply_only_zero (n := n) hy.1 (by simpa [Stmt.bound] using hx)
    have hbody : Stmt.AlphaAll ⟨x, y⟩ (Marks.only (n + 1)) body _ :=
      Stmt.rebindAll_alpha hy.2.2 (by simp)
    rw [← Marks.push_only] at hbody
    simpa [Token.map_swapped_false, Stmt.rebind] using
      Stmt.Alpha.function id params false hname hbody
  | n, .ret keyword value, hy, _ => by
    rw [Stmt.rebind, Expr.map_rebind_eq_swapped hy]
    exact .ret _ keyword value

/-- The same of statements, if they do not declare the name again in the scope. -/
theorem Stmt.rebindAll_alpha : ∀ {n : Nat} {ss : List Stmt}, y ∉ Stmt.namesAll ss →
    (n = 0 → ∀ s ∈ ss, x ∉ s.bound) →
    Stmt.AlphaAll ⟨x, y⟩ (Marks.only n) ss (Stmt.rebindAll x y n ss)
  | _, [], _, _ => .nil _
  | n, s :: ss, hy, hx => by
    simp only [Stmt.namesAll, List.mem_append, not_or] at hy
    exact .cons (Stmt.rebind_alpha hy.1 fun hn => hx hn s (by simp))
      (Stmt.rebindAll_alpha hy.2 fun hn t ht => hx hn t (by simp [ht]))

end

end

/-! ## A scope declares a name once -/

namespace Scopes

/-- What is declared stays declared. -/
theorem hasInner_introduce {scopes : Scopes} {name other : String}
    (h : scopes.hasInner other = true) : (scopes.introduce name).hasInner other = true := by
  cases scopes with
  | nil => simp [hasInner] at h
  | cons scope outer =>
    have hscope : scope.has other = true := h
    show ((scope.declare name).define name).has other = true
    simp [Scope.has_define, Scope.has_declare, hscope]

theorem hasInner_introduce_self {scopes : Scopes} (h : scopes ≠ []) (name : String) :
    (scopes.introduce name).hasInner name = true := by
  cases scopes with
  | nil => exact absurd rfl h
  | cons scope outer =>
    show ((scope.declare name).define name).has name = true
    simp [Scope.has_define]

theorem introduce_ne_nil {scopes : Scopes} (h : scopes ≠ []) (name : String) :
    scopes.introduce name ≠ [] := by
  cases scopes with
  | nil => exact absurd rfl h
  | cons scope outer => exact List.cons_ne_nil _ _

/-- A name may be declared only where it is not declared yet. -/
theorem hasInner_of_declareErrors {scopes : Scopes} {name : Token}
    (h : scopes.declareErrors name = []) : scopes.hasInner name.lexeme = false := by
  unfold declareErrors at h
  split at h
  · cases h
  · next hnot => simpa using hnot

end Scopes

namespace Stmt

/-- A statement leaves all the scopes that it was in. -/
theorem after_ne_nil : ∀ {s : Stmt} {scopes : Scopes}, scopes ≠ [] → s.after scopes ≠ []
  | .var name _, _, h | .function _ name _ _, _, h => Scopes.introduce_ne_nil h name.lexeme
  | .branch _ t none, scopes, h => by
    show t.after scopes ≠ []
    exact after_ne_nil h
  | .branch _ t (some e), scopes, h => by
    show e.after (t.after scopes) ≠ []
    exact after_ne_nil (after_ne_nil h)
  | .loop _ b, scopes, h => by
    show b.after scopes ≠ []
    exact after_ne_nil h
  | .expression _, _, h | .print _, _, h | .block _, _, h | .ret _ _, _, h => h

/-- No statement takes a name out of its scope. -/
theorem hasInner_after {x : String} : ∀ {s : Stmt} {scopes : Scopes},
    scopes.hasInner x = true → (s.after scopes).hasInner x = true
  | .var _ _, _, h | .function _ _ _ _, _, h => Scopes.hasInner_introduce h
  | .branch _ t none, scopes, h => by
    show (t.after scopes).hasInner x = true
    exact hasInner_after h
  | .branch _ t (some e), scopes, h => by
    show (e.after (t.after scopes)).hasInner x = true
    exact hasInner_after (hasInner_after h)
  | .loop _ b, scopes, h => by
    show (b.after scopes).hasInner x = true
    exact hasInner_after h
  | .expression _, _, h | .print _, _, h | .block _, _, h | .ret _ _, _, h => h

/-- The scope has what a statement has declared in it. -/
theorem hasInner_after_of_bound {x : String} : ∀ {s : Stmt} {scopes : Scopes}, scopes ≠ [] →
    x ∈ s.bound → (s.after scopes).hasInner x = true
  | .var name _, _, hne, hx | .function _ name _ _, _, hne, hx => by
    obtain rfl : x = name.lexeme := by simpa [bound] using hx
    exact Scopes.hasInner_introduce_self hne name.lexeme
  | .branch _ t none, scopes, hne, hx => by
    show (t.after scopes).hasInner x = true
    exact hasInner_after_of_bound hne hx
  | .branch _ t (some e), scopes, hne, hx => by
    simp only [bound, List.mem_append] at hx
    show (e.after (t.after scopes)).hasInner x = true
    rcases hx with hx | hx
    · exact hasInner_after (hasInner_after_of_bound hne hx)
    · exact hasInner_after_of_bound (after_ne_nil hne) hx
  | .loop _ b, scopes, hne, hx => by
    show (b.after scopes).hasInner x = true
    exact hasInner_after_of_bound hne hx
  | .expression _, _, _, hx | .print _, _, _, hx | .block _, _, _, hx | .ret _ _, _, _, hx => by
    simp [bound] at hx

/-- Without a fault, the scope does not have the names that a statement declares in it. -/
theorem hasInner_of_scopeErrors {x : String} {inFunction : Bool} : ∀ {s : Stmt} {scopes : Scopes},
    s.scopeErrors inFunction scopes = [] → x ∈ s.bound → scopes.hasInner x = false
  | .var name _, _, herr, hx => by
    simp only [scopeErrors, List.append_eq_nil_iff] at herr
    obtain rfl : x = name.lexeme := by simpa [bound] using hx
    exact Scopes.hasInner_of_declareErrors herr.1
  | .function _ name _ _, _, herr, hx => by
    simp only [scopeErrors, List.append_eq_nil_iff] at herr
    obtain rfl : x = name.lexeme := by simpa [bound] using hx
    exact Scopes.hasInner_of_declareErrors herr.1.1
  | .branch _ t none, _, herr, hx => by
    simp only [scopeErrors, List.append_eq_nil_iff] at herr
    exact hasInner_of_scopeErrors herr.2 hx
  | .branch _ t (some e), scopes, herr, hx => by
    simp only [scopeErrors, List.append_eq_nil_iff] at herr
    simp only [bound, List.mem_append] at hx
    rcases hx with hx | hx
    · exact hasInner_of_scopeErrors herr.1.2 hx
    · have hafter := hasInner_of_scopeErrors herr.2 hx
      cases h : scopes.hasInner x with
      | false => rfl
      | true => rw [hasInner_after h] at hafter; cases hafter
  | .loop _ b, _, herr, hx => by
    simp only [scopeErrors, List.append_eq_nil_iff] at herr
    exact hasInner_of_scopeErrors herr.2 hx
  | .expression _, _, _, hx | .print _, _, _, hx | .block _, _, _, hx | .ret _ _, _, _, hx => by
    simp [bound] at hx

/-- Without a fault, nobody declares a name that the scope has already. -/
theorem not_mem_bound_of_hasInner {x : String} {inFunction : Bool} : ∀ {ss : List Stmt}
    {scopes : Scopes}, scopes.hasInner x = true → scopeErrorsAll inFunction scopes ss = [] →
    ∀ s ∈ ss, x ∉ s.bound
  | [], _, _, _, _, hs => by cases hs
  | s :: ss, scopes, hx, herr, t, ht => by
    simp only [scopeErrorsAll, List.append_eq_nil_iff] at herr
    rcases List.mem_cons.mp ht with rfl | ht
    · intro hbound
      rw [hasInner_of_scopeErrors herr.1 hbound] at hx
      cases hx
    · exact not_mem_bound_of_hasInner (hasInner_after hx) herr.2 t ht

theorem names_subset_of_mem : ∀ {ss : List Stmt} {s : Stmt}, s ∈ ss → s.names ⊆ namesAll ss
  | s :: ss, t, ht => by
    rcases List.mem_cons.mp ht with rfl | ht
    · exact List.subset_append_left _ _
    · exact List.Subset.trans (names_subset_of_mem ht) (List.subset_append_right _ _)

/-- A site of a variable is the declaration of one. -/
theorem mem_of_variable? {body : List Stmt} {i : Nat} {token : Token}
    (h : body[i]?.bind Stmt.variable? = some token) :
    ∃ init, body[i]? = some (.var token init) := by
  obtain ⟨s, hs, htoken⟩ := Option.bind_eq_some_iff.mp h
  cases s with
  | var name init =>
    cases htoken
    exact ⟨init, hs⟩
  | _ => cases htoken

/-- Renaming a variable of a scope exchanges the names in it. -/
theorem redeclare_alpha {token : Token} {init : Option Expr} {y : String} {inFunction : Bool} :
    ∀ {body : List Stmt} {i : Nat} {scopes : Scopes}, scopes ≠ [] →
    scopeErrorsAll inFunction scopes body = [] → body[i]? = some (.var token init) →
    y ∉ namesAll body →
    AlphaAll ⟨token.lexeme, y⟩ (Marks.only 0) body
      (rebindAll token.lexeme y 0 (body.modify i (redeclare y)))
  | s :: ss, 0, scopes, hne, herr, hget, hy => by
    obtain rfl : s = .var token init := by simpa using hget
    simp only [scopeErrorsAll, List.append_eq_nil_iff] at herr
    simp only [namesAll, names, List.mem_append, List.mem_cons, not_or] at hy
    have hvar : Alpha ⟨token.lexeme, y⟩ (Marks.only 0) (.var token init) _ := .var _ token init
    rw [Token.swapped, Marks.only_self, Swap.apply_old, ← Expr.map_rebind_eq_swapped hy.1.2] at hvar
    -- from here on the scope has the name
    have hhas : ((Stmt.var token init).after scopes).hasInner token.lexeme = true :=
      hasInner_after_of_bound hne (by simp [bound])
    exact .cons hvar (rebindAll_alpha hy.2 fun _ => not_mem_bound_of_hasInner hhas herr.2)
  | s :: ss, i + 1, scopes, hne, herr, hget, hy => by
    have hget' : ss[i]? = some (.var token init) := by simpa using hget
    simp only [scopeErrorsAll, List.append_eq_nil_iff] at herr
    simp only [namesAll, List.mem_append, not_or] at hy
    -- were the name declared before, it would be declared again
    have hs : token.lexeme ∉ s.bound := by
      intro hbound
      exact not_mem_bound_of_hasInner (hasInner_after_of_bound hne hbound) herr.2 _
        (List.mem_of_getElem? hget') (by simp [bound])
    exact .cons (rebind_alpha hy.1 fun _ => hs)
      (redeclare_alpha (after_ne_nil hne) herr.2 hget' hy.2)

/-- A change of one statement is one of all, the others staying as they are. -/
theorem AlphaAll.modify {ρ : Swap} {f : Stmt → Stmt} {s : Stmt} : ∀ {body : List Stmt} {i : Nat},
    body[i]? = some s → s.Alpha ρ Marks.none (f s) → AlphaAll ρ Marks.none body (body.modify i f)
  | t :: ts, 0, hget, h => by
    obtain rfl : t = s := by simpa using hget
    exact .cons h (.refl ρ ts)
  | t :: ts, i + 1, hget, h => .cons (.refl ρ t) (AlphaAll.modify (by simpa using hget) h)

/-- A statement among others without a fault has none, in the scopes that it is resolved in. -/
theorem scopeErrors_of_getElem? {s : Stmt} {inFunction : Bool} : ∀ {body : List Stmt} {i : Nat}
    {scopes : Scopes}, scopeErrorsAll inFunction scopes body = [] → body[i]? = some s →
    ∃ scopes', s.scopeErrors inFunction scopes' = []
  | t :: ts, 0, scopes, herr, hget => by
    obtain rfl : t = s := by simpa using hget
    simp only [scopeErrorsAll, List.append_eq_nil_iff] at herr
    exact ⟨scopes, herr.1⟩
  | t :: ts, i + 1, _, herr, hget => by
    simp only [scopeErrorsAll, List.append_eq_nil_iff] at herr
    exact scopeErrors_of_getElem? herr.2 (by simpa using hget)

end Stmt

/-! ## Parameters -/

/-- Without a fault, no parameter has a name that the scope has already. -/
theorem not_mem_params_of_hasInner {x : String} : ∀ {params : List Token} {scopes : Scopes},
    scopes.hasInner x = true → parameterErrors scopes params = [] →
    x ∉ params.map Token.lexeme
  | [], _, _, _ => by simp
  | param :: params, scopes, hx, herr => by
    simp only [parameterErrors, List.append_eq_nil_iff] at herr
    rw [List.map_cons, List.mem_cons, not_or]
    refine ⟨?_, not_mem_params_of_hasInner (Scopes.hasInner_introduce hx) herr.2⟩
    rintro rfl
    rw [Scopes.hasInner_of_declareErrors herr.1] at hx
    cases hx

theorem hasInner_foldl_introduce {x : String} : ∀ {params : List Token} {scopes : Scopes},
    scopes.hasInner x = true →
    (params.foldl (fun scopes param => scopes.introduce param.lexeme) scopes).hasInner x = true
  | [], _, h => h
  | _ :: params, _, h => by
    rw [List.foldl_cons]
    exact hasInner_foldl_introduce (Scopes.hasInner_introduce h)

/-- Every parameter is declared in the scope of the parameters. -/
theorem hasInner_foldl_introduce_of_mem {x : String} : ∀ {params : List Token} {scopes : Scopes},
    scopes ≠ [] → x ∈ params.map Token.lexeme →
    (params.foldl (fun scopes param => scopes.introduce param.lexeme) scopes).hasInner x = true
  | param :: params, scopes, hne, hx => by
    rw [List.map_cons, List.mem_cons] at hx
    rw [List.foldl_cons]
    rcases hx with rfl | hx
    · exact hasInner_foldl_introduce (Scopes.hasInner_introduce_self hne param.lexeme)
    · exact hasInner_foldl_introduce_of_mem (Scopes.introduce_ne_nil hne param.lexeme) hx

theorem foldl_introduce_ne_nil : ∀ {params : List Token} {scopes : Scopes}, scopes ≠ [] →
    params.foldl (fun scopes param => scopes.introduce param.lexeme) scopes ≠ []
  | [], _, h => h
  | param :: params, _, h => by
    rw [List.foldl_cons]
    exact foldl_introduce_ne_nil (Scopes.introduce_ne_nil h param.lexeme)

/-- Parameters with none of two names are the same when the names are exchanged. -/
theorem Token.map_swapped_of_not_mem {x y : String} {params : List Token}
    (hx : x ∉ params.map Token.lexeme) (hy : y ∉ params.map Token.lexeme) (marked : Bool) :
    params.map (Token.swapped ⟨x, y⟩ marked) = params := by
  refine (List.map_congr_left fun param hmem => ?_).trans (List.map_id params)
  have hlexeme : param.lexeme ∈ params.map Token.lexeme := List.mem_map_of_mem hmem
  have hx' : param.lexeme ≠ x := fun h => hx (h ▸ hlexeme)
  have hy' : param.lexeme ≠ y := fun h => hy (h ▸ hlexeme)
  rw [Token.swapped, Swap.apply_of_ne ⟨x, y⟩ hx' hy']
  rfl

/-- Renaming a parameter exchanges the names in the list of parameters. -/
theorem modify_renamed_eq_swapped {token : Token} {y : String} : ∀ {params : List Token} {i : Nat}
    {scopes : Scopes}, scopes ≠ [] → parameterErrors scopes params = [] →
    params[i]? = some token → y ∉ params.map Token.lexeme →
    params.modify i (Token.renamed y) = params.map (Token.swapped ⟨token.lexeme, y⟩ true)
  | param :: params, 0, scopes, hne, herr, hget, hy => by
    obtain rfl : param = token := by simpa using hget
    simp only [parameterErrors, List.append_eq_nil_iff] at herr
    simp only [List.map_cons, List.mem_cons, not_or] at hy
    -- the scope has the name from here on, so no later parameter has it
    have hrest := not_mem_params_of_hasInner
      (Scopes.hasInner_introduce_self hne param.lexeme) herr.2
    rw [List.map_cons, Token.map_swapped_of_not_mem hrest hy.2, Token.swapped, Swap.apply_old]
    rfl
  | param :: params, i + 1, scopes, hne, herr, hget, hy => by
    have hget' : params[i]? = some token := by simpa using hget
    simp only [parameterErrors, List.append_eq_nil_iff] at herr
    simp only [List.map_cons, List.mem_cons, not_or] at hy
    -- and no earlier one, or the name would be declared again
    have hparam : param.lexeme ≠ token.lexeme := by
      intro h
      refine not_mem_params_of_hasInner (Scopes.hasInner_introduce_self hne param.lexeme) herr.2 ?_
      rw [h]
      exact List.mem_map_of_mem (List.mem_of_getElem? hget')
    rw [List.map_cons, Token.swapped, Swap.apply_of_ne ⟨_, y⟩ hparam (Ne.symm hy.1),
      ← modify_renamed_eq_swapped (Scopes.introduce_ne_nil hne param.lexeme) herr.2 hget' hy.2]
    rfl

/-! ## Renaming -/

namespace Site

variable {token : Token} {y : String} {s : Stmt} {scopes : Scopes} {inFunction : Bool}

/-- Renaming a variable exchanges two names in the scope that declares it. -/
theorem rename_var_alpha {i : Nat} (herr : s.scopeErrors inFunction scopes = [])
    (hsite : (var i).declared? s = some token) (hy : y ∉ s.names) :
    s.Alpha ⟨token.lexeme, y⟩ Marks.none ((var i).rename token.lexeme y s) := by
  cases s with
  | block body =>
    obtain ⟨init, hget⟩ := Stmt.mem_of_variable? hsite
    have hbody := Stmt.redeclare_alpha (List.cons_ne_nil [] scopes) herr hget hy
    rw [← Marks.push_none_true] at hbody
    exact .block true hbody
  | function id name params body =>
    obtain ⟨init, hget⟩ := Stmt.mem_of_variable? hsite
    simp only [Stmt.scopeErrors, List.append_eq_nil_iff] at herr
    simp only [Stmt.names, List.mem_cons, List.mem_append, not_or] at hy
    have hne := List.cons_ne_nil [] (scopes.introduce name.lexeme)
    have hbody := Stmt.redeclare_alpha (foldl_introduce_ne_nil hne) herr.2 hget hy.2.2
    rw [← Marks.push_none_true] at hbody
    -- a parameter of the same name would be a fault
    have hparams : token.lexeme ∉ params.map Token.lexeme := by
      intro hmem
      exact Stmt.not_mem_bound_of_hasInner (hasInner_foldl_introduce_of_mem hne hmem) herr.2 _
        (List.mem_of_getElem? hget) (by simp [Stmt.bound])
    have h := Stmt.Alpha.function id params true (Swap.apply_false _ name.lexeme) hbody
    rwa [Token.map_swapped_of_not_mem hparams hy.2.1] at h
  | _ => cases hsite

/-- Renaming a parameter exchanges two names in the scope of the function. -/
theorem rename_param_alpha {i : Nat} (herr : s.scopeErrors inFunction scopes = [])
    (hsite : (param i).declared? s = some token) (hy : y ∉ s.names) :
    s.Alpha ⟨token.lexeme, y⟩ Marks.none ((param i).rename token.lexeme y s) := by
  cases s with
  | function id name params body =>
    have hget : params[i]? = some token := hsite
    simp only [Stmt.scopeErrors, List.append_eq_nil_iff] at herr
    simp only [Stmt.names, List.mem_cons, List.mem_append, not_or] at hy
    have hne := List.cons_ne_nil [] (scopes.introduce name.lexeme)
    have hmem : token.lexeme ∈ params.map Token.lexeme :=
      List.mem_map_of_mem (List.mem_of_getElem? hget)
    have hbody : Stmt.AlphaAll ⟨token.lexeme, y⟩ (Marks.only 0) body _ :=
      Stmt.rebindAll_alpha hy.2.2 fun _ =>
        Stmt.not_mem_bound_of_hasInner (hasInner_foldl_introduce_of_mem hne hmem) herr.2
    rw [← Marks.push_none_true] at hbody
    have h := Stmt.Alpha.function id params true (Swap.apply_false _ name.lexeme) hbody
    rwa [← modify_renamed_eq_swapped hne herr.1.2 hget hy.2.1] at h
  | _ => cases hsite

/-- If a change to one statement of a sequence exchanges names inside of it, then that is all. -/
theorem modify_alpha {body : List Stmt} {i : Nat} {site : Site}
    (herr : Stmt.scopeErrorsAll inFunction scopes body = [])
    (hsite : body[i]?.bind site.declared? = some token) (hy : y ∉ Stmt.namesAll body)
    (ih : ∀ {s : Stmt} {scopes : Scopes} {inFunction : Bool},
      s.scopeErrors inFunction scopes = [] → site.declared? s = some token → y ∉ s.names →
      s.Alpha ⟨token.lexeme, y⟩ Marks.none (site.rename token.lexeme y s)) :
    Stmt.AlphaAll ⟨token.lexeme, y⟩ Marks.none body
      (body.modify i (site.rename token.lexeme y)) := by
  obtain ⟨s, hget, hs⟩ := Option.bind_eq_some_iff.mp hsite
  obtain ⟨scopes', herr'⟩ := Stmt.scopeErrors_of_getElem? herr hget
  have hy' : y ∉ s.names := fun h => hy (Stmt.names_subset_of_mem (List.mem_of_getElem? hget) h)
  exact Stmt.AlphaAll.modify hget (ih herr' hs hy')

/--
**Renaming a local exchanges two names in one scope**, and nothing else, if the statement has no
fault and the name is new to it.
-/
theorem rename_alpha {site : Site} (herr : s.scopeErrors inFunction scopes = [])
    (hsite : site.declared? s = some token) (hy : y ∉ s.names) :
    s.Alpha ⟨token.lexeme, y⟩ Marks.none (site.rename token.lexeme y s) := by
  -- the site is a way down; the statement is taken apart as the site says
  induction site generalizing s scopes inFunction with
  | var i => exact rename_var_alpha herr hsite hy
  | param i => exact rename_param_alpha herr hsite hy
  | inside i site ih =>
    cases s with
    | block body =>
      have hbody := modify_alpha herr hsite hy ih
      exact .block false (by simpa using hbody)
    | function id name params body =>
      simp only [Stmt.scopeErrors, List.append_eq_nil_iff] at herr
      simp only [Stmt.names, List.mem_cons, List.mem_append, not_or] at hy
      have hbody := modify_alpha herr.2 hsite hy.2.2 ih
      rw [← Marks.push_none] at hbody
      have h := Stmt.Alpha.function id params false (Swap.apply_false _ name.lexeme) hbody
      rwa [Token.map_swapped_false] at h
    | _ => cases hsite
  | thenBranch site ih =>
    cases s with
    | branch condition t e =>
      cases e with
      | none =>
        simp only [Stmt.scopeErrors, List.append_eq_nil_iff] at herr
        simp only [Stmt.names, List.mem_append, not_or] at hy
        have h := Stmt.Alpha.branch condition (ih herr.2 hsite hy.2)
        rwa [Expr.swapped_none] at h
      | some e =>
        simp only [Stmt.scopeErrors, List.append_eq_nil_iff] at herr
        simp only [Stmt.names, List.mem_append, not_or] at hy
        have h := Stmt.Alpha.branchElse condition (ih herr.1.2 hsite hy.1.2) (Stmt.Alpha.refl _ e)
        rwa [Expr.swapped_none] at h
    | _ => cases hsite
  | elseBranch site ih =>
    cases s with
    | branch condition t e =>
      cases e with
      | none => cases hsite
      | some e =>
        simp only [Stmt.scopeErrors, List.append_eq_nil_iff] at herr
        simp only [Stmt.names, List.mem_append, not_or] at hy
        have h := Stmt.Alpha.branchElse condition (Stmt.Alpha.refl _ t) (ih herr.2 hsite hy.2)
        rwa [Expr.swapped_none] at h
    | _ => cases hsite
  | loopBody site ih =>
    cases s with
    | loop condition b =>
      simp only [Stmt.scopeErrors, List.append_eq_nil_iff] at herr
      simp only [Stmt.names, List.mem_append, not_or] at hy
      have h := Stmt.Alpha.loop condition (ih herr.2 hsite hy.2)
      rwa [Expr.swapped_none] at h
    | _ => cases hsite

end Site

end Nya
