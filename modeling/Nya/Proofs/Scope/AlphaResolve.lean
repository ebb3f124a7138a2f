import Nya.Proofs.Scope.Alpha

/-!
# Resolution under an exchange of names

If two names are exchanged in some scopes of a program, resolution sees no difference, provided
that one of the two names is new to the program. The scopes correspond, a name is found as far out
as before, and is pending if it was:

* `Stmt.AlphaAll.resolveAll_eq`: the depths of the one tree are right for the other
* `Stmt.AlphaAll.scopeErrorsAll_eq_nil`: no fault comes up
* `Stmt.AlphaAll.depths_eq`: both have the same references, at the same depths
-/

namespace Nya

/-! ## Scopes -/

namespace Scope

/-- The scope with the two names exchanged if it is marked. -/
def swapped (ρ : Swap) (marked : Bool) (scope : Scope) : Scope :=
  scope.map fun entry => (ρ.apply marked entry.1, entry.2)

variable (ρ : Swap) (marked : Bool)

/-- A name in a renamed scope is as ready as the one it stands for. -/
theorem ready?_swapped (scope : Scope) (name : String) :
    (scope.swapped ρ marked).ready? name = scope.ready? (ρ.apply marked name) := by
  induction scope with
  | nil => rfl
  | cons entry rest ih =>
    obtain ⟨n, ready⟩ := entry
    have hkey : (name == ρ.apply marked n) = (ρ.apply marked name == n) := by
      rw [Bool.eq_iff_iff, beq_iff_eq, beq_iff_eq]
      constructor
      · rintro rfl
        exact ρ.apply_apply marked n
      · intro h
        rw [← h, ρ.apply_apply]
    simp only [swapped, ready?, List.map_cons, List.lookup_cons, hkey] at ih ⊢
    rw [ih]

theorem has_swapped (scope : Scope) (name : String) :
    (scope.swapped ρ marked).has name = scope.has (ρ.apply marked name) := by
  rw [has, has, ready?_swapped]

/-- Marking a renamed name is marking the name before the renaming. -/
theorem mark_swapped (scope : Scope) (name : String) (ready : Bool) :
    (scope.swapped ρ marked).mark (ρ.apply marked name) ready =
      (scope.mark name ready).swapped ρ marked := by
  induction scope with
  | nil => rfl
  | cons entry rest ih =>
    obtain ⟨n, r⟩ := entry
    simp only [swapped, List.map_cons, mark, ρ.apply_inj] at ih ⊢
    split
    · rfl
    · rw [ih, List.map_cons]

theorem declare_swapped (scope : Scope) (name : String) :
    (scope.swapped ρ marked).declare (ρ.apply marked name) =
      (scope.declare name).swapped ρ marked := by
  unfold declare
  rw [has_swapped, ρ.apply_apply, mark_swapped]
  split <;> rfl

/--
A name that is neither the new one nor bound to another scope is as ready as it was, under the
name of the scope it is bound to.
-/
theorem ready?_swapped_bound {scope : Scope} {name : String} {bound : Bool}
    (hnew : scope.has ρ.new = false) (hname : name ≠ ρ.new)
    (hbound : scope.has name = true → bound = marked) :
    (scope.swapped ρ marked).ready? (ρ.apply bound name) = scope.ready? name := by
  rw [ready?_swapped]
  cases hhas : scope.has name with
  | true => rw [hbound hhas, ρ.apply_apply]
  | false =>
    -- what the scope is asked for is one of two names, and it has neither
    rcases ρ.apply_apply_eq_or hname bound marked with h | h
    · rw [h]
    · rw [h, Option.isSome_eq_false_iff.mp hhas |> Option.isNone_iff_eq_none.mp,
        Option.isSome_eq_false_iff.mp hnew |> Option.isNone_iff_eq_none.mp]

/-- A declaration adds its own name to a scope, and no other. -/
theorem has_declare {scope : Scope} {name other : String} :
    (scope.declare name).has other = (scope.has other || other == name) := by
  by_cases h : other = name
  · subst h
    unfold declare
    split
    · next hhas => simp [hhas]
    · simp [has]
  · have hmark : (scope.mark name false).has other = scope.has other := by
      rw [has, ready?_mark_of_ne h, has]
    unfold declare
    split <;> simp [h, hmark]

/-- So does a definition. -/
theorem has_define {scope : Scope} {name other : String} :
    (scope.define name).has other = (scope.has other || other == name) := by
  by_cases h : other = name
  · subst h
    simp [define, has]
  · simp [define, has, ready?_mark_of_ne h, h]

end Scope

namespace Scopes

/-- The scopes with the two names exchanged in the marked ones. -/
def swapped (ρ : Swap) : Marks → Scopes → Scopes
  | _, [] => []
  | marks, scope :: outer =>
    scope.swapped ρ (marks 0) :: swapped ρ (fun n => marks (n + 1)) outer

variable (ρ : Swap)

/-- There is nothing to rename in a scope that is just entered. -/
@[simp] theorem swapped_push (marks : Marks) (marked : Bool) (scopes : Scopes) :
    swapped ρ (marks.push marked) ([] :: scopes) = [] :: swapped ρ marks scopes := rfl

theorem declare_swapped (marks : Marks) (scopes : Scopes) (name : String) :
    (swapped ρ marks scopes).declare (ρ.apply (marks 0) name) =
      swapped ρ marks (scopes.declare name) := by
  cases scopes with
  | nil => rfl
  | cons scope outer => simp only [swapped, declare, updateInner, Scope.declare_swapped]

theorem define_swapped (marks : Marks) (scopes : Scopes) (name : String) :
    (swapped ρ marks scopes).define (ρ.apply (marks 0) name) =
      swapped ρ marks (scopes.define name) := by
  cases scopes with
  | nil => rfl
  | cons scope outer => simp only [swapped, define, updateInner, Scope.define, Scope.mark_swapped]

/-- A name is introduced in the innermost scope, where the first mark says whether it is renamed. -/
theorem introduce_swapped (marks : Marks) (scopes : Scopes) (name : String) :
    (swapped ρ marks scopes).introduce (ρ.apply (marks 0) name) =
      swapped ρ marks (scopes.introduce name) := by
  rw [introduce, introduce, declare_swapped, define_swapped]

/-- A redeclaration in the innermost scope is one after the renaming, and none appears. -/
theorem hasInner_swapped (marks : Marks) (scopes : Scopes) (name : String) :
    (swapped ρ marks scopes).hasInner (ρ.apply (marks 0) name) = scopes.hasInner name := by
  cases scopes with
  | nil => rfl
  | cons scope outer => rw [swapped, hasInner, hasInner, Scope.has_swapped, ρ.apply_apply]

/-- None of the scopes has the name. -/
def Lacks (scopes : Scopes) (name : String) : Prop := ∀ scope ∈ scopes, scope.has name = false

/-- A fresh name stays fresh when a scope is entered. -/
theorem Lacks.enter {scopes : Scopes} {name : String} (h : scopes.Lacks name) :
    Scopes.Lacks ([] :: scopes) name := by
  intro scope hmem
  rcases List.mem_cons.mp hmem with rfl | hmem
  · rfl
  · exact h scope hmem

/-- A fresh name stays fresh when another is declared. -/
theorem Lacks.declare {scopes : Scopes} {name other : String} (h : scopes.Lacks name)
    (hne : other ≠ name) : (scopes.declare other).Lacks name := by
  cases scopes with
  | nil => exact h
  | cons inner outer =>
    intro scope hmem
    rcases List.mem_cons.mp hmem with rfl | hmem
    · rw [Scope.has_declare, h inner (by simp), Bool.false_or, beq_eq_false_iff_ne]
      exact hne.symm
    · exact h scope (by simp [hmem])

/-- A fresh name stays fresh when another is introduced. -/
theorem Lacks.introduce {scopes : Scopes} {name other : String} (h : scopes.Lacks name)
    (hne : other ≠ name) : (scopes.introduce other).Lacks name := by
  have hd := h.declare hne
  unfold Scopes.introduce
  cases hs : scopes.declare other with
  | nil => simp [Scopes.define, updateInner, Lacks]
  | cons inner outer =>
    rw [hs] at hd
    intro scope hmem
    rcases List.mem_cons.mp hmem with rfl | hmem
    · rw [Scope.has_define, hd inner (by simp), Bool.false_or, beq_eq_false_iff_ne]
      exact hne.symm
    · exact hd scope (by simp [hmem])

/-- A name is looked for in the innermost scope first. -/
theorem depth?_cons (scope : Scope) (outer : Scopes) (name : String) :
    Scopes.depth? (scope :: outer) name =
      if scope.has name then some 0 else (Scopes.depth? outer name).map (· + 1) := by
  rw [depth?, List.findIdx?_cons, depth?]

/-- **A name other than the new one is found as far out as before**, under the name of its scope. -/
theorem depth?_swapped {name : String} {bound : Bool} (hname : name ≠ ρ.new) :
    ∀ {scopes : Scopes} {marks : Marks}, scopes.Lacks ρ.new →
      (∀ d, scopes.depth? name = some d → bound = marks d) →
      (swapped ρ marks scopes).depth? (ρ.apply bound name) = scopes.depth? name
  | [], _, _, _ => rfl
  | scope :: outer, marks, hnew, hbound => by
    have hinner : scope.has name = true → bound = marks 0 := by
      intro hhas
      exact hbound 0 (by rw [depth?_cons, if_pos hhas])
    have hhas : (scope.swapped ρ (marks 0)).has (ρ.apply bound name) = scope.has name := by
      rw [Scope.has, Scope.has,
        Scope.ready?_swapped_bound ρ (marks 0) (hnew scope (by simp)) hname hinner]
    -- the scope has what stands for the name if and only if it has the name
    rw [swapped, depth?_cons, depth?_cons, hhas]
    split
    · rfl
    · next hnot =>
      rw [depth?_swapped hname (fun s hs => hnew s (by simp [hs]))]
      intro d hd
      exact hbound (d + 1) (by rw [depth?_cons, if_neg hnot, hd]; rfl)

/-- A name other than the new one is pending if it was, under the name of its scope. -/
theorem isPending_swapped {name : String} {bound : Bool} (hname : name ≠ ρ.new) {scopes : Scopes}
    {marks : Marks} (hnew : scopes.Lacks ρ.new)
    (hbound : ∀ d, scopes.depth? name = some d → bound = marks d) :
    (swapped ρ marks scopes).isPending (ρ.apply bound name) = scopes.isPending name := by
  cases scopes with
  | nil => rfl
  | cons scope outer =>
    rw [swapped, isPending, isPending,
      Scope.ready?_swapped_bound ρ (marks 0) (hnew scope (by simp)) hname]
    intro hhas
    exact hbound 0 (by rw [depth?_cons, if_pos hhas])

end Scopes

/-! ## Resolution -/

namespace Reference

variable {ρ : Swap} {marks : Marks} {scopes : Scopes}

/-- The mark of a resolved reference is that of the scope that has its name. -/
theorem mark_of_depth? (marks : Marks) {r : Reference} (h : r.resolve scopes = r) (d : Nat)
    (hd : scopes.depth? r.name.lexeme = some d) : r.mark marks = marks d := by
  have hr : r.depth = scopes.depth? r.name.lexeme := congrArg Reference.depth h.symm
  rw [mark, hr, hd]

/-- A reference that is resolved stays resolved, at the same depth, in the renamed scopes. -/
theorem resolve_swapped {r : Reference} (hnew : scopes.Lacks ρ.new) (hname : r.name.lexeme ≠ ρ.new)
    (h : r.resolve scopes = r) :
    (r.swapped ρ marks).resolve (scopes.swapped ρ marks) = r.swapped ρ marks := by
  have hdepth := Scopes.depth?_swapped ρ hname hnew (mark_of_depth? marks h)
  have hr : r.depth = scopes.depth? r.name.lexeme := congrArg Reference.depth h.symm
  simp only [resolve, swapped, Token.swapped, hdepth, ← hr]

end Reference

/-! What holds of an expression is a matter of its references. -/

mutual

/-- A function applied to the references of an expression is applied to each, in order. -/
theorem Expr.references_mapReferences (f : Reference → Reference) : ∀ e : Expr,
    (e.mapReferences f).references = e.references.map fun r => (r.1, f r.2)
  | .literal _ _ | .read _ => rfl
  | .assign _ e | .unary _ _ e | .group _ e => by
    simp [Expr.mapReferences, Expr.references, Expr.references_mapReferences f e]
  | .binary _ l _ r | .logical _ l _ r => by
    simp [Expr.mapReferences, Expr.references, Expr.references_mapReferences f l,
      Expr.references_mapReferences f r]
  | .call _ c es _ => by
    simp [Expr.mapReferences, Expr.references, Expr.references_mapReferences f c,
      Expr.referencesAll_mapReferences f es]

theorem Expr.referencesAll_mapReferences (f : Reference → Reference) : ∀ es : List Expr,
    Expr.referencesAll (Expr.mapReferencesAll f es) =
      (Expr.referencesAll es).map fun r => (r.1, f r.2)
  | [] => rfl
  | e :: es => by
    simp [Expr.mapReferencesAll, Expr.referencesAll, Expr.references_mapReferences f e,
      Expr.referencesAll_mapReferences f es]

end

/-- Exchanging names touches neither the order of the references nor their depths. -/
theorem Expr.depths_swapped (ρ : Swap) (marks : Marks) (e : Expr) :
    (e.swapped ρ marks).references.map (fun r => (r.1, r.2.id, r.2.depth)) =
      e.references.map fun r => (r.1, r.2.id, r.2.depth) := by
  rw [Expr.swapped, Expr.references_mapReferences, List.map_map]
  rfl

/-- A renaming leaves the depths of an optional expression alone. -/
theorem Expr.depthsOption_swapped (ρ : Swap) (marks : Marks) (e : Option Expr) :
    (Expr.referencesOption (e.map (Expr.swapped ρ marks))).map
        (fun r => (r.1, r.2.id, r.2.depth)) =
      (Expr.referencesOption e).map fun r => (r.1, r.2.id, r.2.depth) := by
  cases e with
  | none => rfl
  | some e => exact Expr.depths_swapped ρ marks e

mutual

/-- Resolution changes every reference in the same way. -/
theorem Expr.resolve_eq_mapReferences (scopes : Scopes) : ∀ e : Expr,
    e.resolve scopes = e.mapReferences (Reference.resolve scopes)
  | .literal _ _ | .read _ => rfl
  | .assign _ e | .unary _ _ e | .group _ e => by
    simp [Expr.resolve, Expr.mapReferences, Expr.resolve_eq_mapReferences scopes e]
  | .binary _ l _ r | .logical _ l _ r => by
    simp [Expr.resolve, Expr.mapReferences, Expr.resolve_eq_mapReferences scopes l,
      Expr.resolve_eq_mapReferences scopes r]
  | .call _ c es _ => by
    simp [Expr.resolve, Expr.mapReferences, Expr.resolve_eq_mapReferences scopes c,
      Expr.resolveAll_eq_mapReferences scopes es]

/-- Resolution acts on references alone. -/
theorem Expr.resolveAll_eq_mapReferences (scopes : Scopes) : ∀ es : List Expr,
    Expr.resolveAll scopes es = Expr.mapReferencesAll (Reference.resolve scopes) es
  | [] => rfl
  | e :: es => by
    simp [Expr.resolveAll, Expr.mapReferencesAll, Expr.resolve_eq_mapReferences scopes e,
      Expr.resolveAll_eq_mapReferences scopes es]

end

/-- An expression is resolved if each of its references is. -/
theorem Expr.resolve_eq_self_iff {scopes : Scopes} {e : Expr} :
    e.resolve scopes = e ↔ ∀ r ∈ e.references, r.2.resolve scopes = r.2 := by
  rw [Expr.resolve_eq_mapReferences, Expr.mapReferences_eq_self_iff]

mutual

/-- An expression is in error only by reading a name whose initializer it stands in. -/
theorem Expr.scopeErrors_eq_nil_iff (scopes : Scopes) : ∀ e : Expr,
    e.scopeErrors scopes = [] ↔
      ∀ r ∈ e.references, r.1 = .read → scopes.isPending r.2.name.lexeme = false
  | .literal _ _ => by simp [Expr.scopeErrors, Expr.references]
  | .read _ => by simp [Expr.scopeErrors, Expr.references]
  | .assign _ e => by
    simp [Expr.scopeErrors, Expr.references, Expr.scopeErrors_eq_nil_iff scopes e, or_imp,
      forall_and]
  | .unary _ _ e | .group _ e => by
    simp [Expr.scopeErrors, Expr.references, Expr.scopeErrors_eq_nil_iff scopes e]
  | .binary _ l _ r | .logical _ l _ r => by
    simp [Expr.scopeErrors, Expr.references, Expr.scopeErrors_eq_nil_iff scopes l,
      Expr.scopeErrors_eq_nil_iff scopes r, or_imp, forall_and]
  | .call _ c es _ => by
    simp [Expr.scopeErrors, Expr.references, Expr.scopeErrors_eq_nil_iff scopes c,
      Expr.scopeErrorsAll_eq_nil_iff scopes es, or_imp, forall_and]

theorem Expr.scopeErrorsAll_eq_nil_iff (scopes : Scopes) : ∀ es : List Expr,
    Expr.scopeErrorsAll scopes es = [] ↔
      ∀ r ∈ Expr.referencesAll es, r.1 = .read → scopes.isPending r.2.name.lexeme = false
  | [] => by simp [Expr.scopeErrorsAll, Expr.referencesAll]
  | e :: es => by
    simp [Expr.scopeErrorsAll, Expr.referencesAll, Expr.scopeErrors_eq_nil_iff scopes e,
      Expr.scopeErrorsAll_eq_nil_iff scopes es, or_imp, forall_and]

end

section

variable {ρ : Swap} {scopes : Scopes} {marks : Marks}

/-- The depths of an expression are right for the expression with names exchanged. -/
theorem Expr.resolve_swapped {e : Expr} (hnew : scopes.Lacks ρ.new) (hy : ρ.new ∉ e.names)
    (h : e.resolve scopes = e) :
    (e.swapped ρ marks).resolve (scopes.swapped ρ marks) = e.swapped ρ marks := by
  rw [Expr.resolve_eq_self_iff] at h ⊢
  rw [Expr.swapped, Expr.references_mapReferences]
  intro r hr
  obtain ⟨r₀, hr₀, rfl⟩ := List.mem_map.mp hr
  refine Reference.resolve_swapped hnew (fun hname => hy ?_) (h r₀ hr₀)
  exact List.mem_map.mpr ⟨r₀, hr₀, hname⟩

/-- No fault comes up in an expression by exchanging names. -/
theorem Expr.scopeErrors_swapped {e : Expr} (hnew : scopes.Lacks ρ.new) (hy : ρ.new ∉ e.names)
    (h : e.resolve scopes = e) (herr : e.scopeErrors scopes = []) :
    (e.swapped ρ marks).scopeErrors (scopes.swapped ρ marks) = [] := by
  rw [Expr.resolve_eq_self_iff] at h
  rw [Expr.scopeErrors_eq_nil_iff] at herr ⊢
  rw [Expr.swapped, Expr.references_mapReferences]
  intro r hr hread
  obtain ⟨r₀, hr₀, rfl⟩ := List.mem_map.mp hr
  have hname : r₀.2.name.lexeme ≠ ρ.new := fun hname => hy (List.mem_map.mpr ⟨r₀, hr₀, hname⟩)
  have hpending := Scopes.isPending_swapped ρ hname hnew (Reference.mark_of_depth? marks (h r₀ hr₀))
  exact hpending.trans (herr r₀ hr₀ hread)

theorem Expr.map_resolve_swapped {e : Option Expr} (hnew : scopes.Lacks ρ.new)
    (hy : ρ.new ∉ Expr.namesOption e) (h : e.map (Expr.resolve scopes) = e) :
    (e.map (Expr.swapped ρ marks)).map (Expr.resolve (scopes.swapped ρ marks)) =
      e.map (Expr.swapped ρ marks) := by
  cases e with
  | none => rfl
  | some e =>
    have he : e.resolve scopes = e := Option.some.inj h
    exact congrArg some (Expr.resolve_swapped hnew hy he)

theorem Expr.scopeErrorsOption_swapped {e : Option Expr} (hnew : scopes.Lacks ρ.new)
    (hy : ρ.new ∉ Expr.namesOption e) (h : e.map (Expr.resolve scopes) = e)
    (herr : Expr.scopeErrorsOption scopes e = []) :
    Expr.scopeErrorsOption (scopes.swapped ρ marks) (e.map (Expr.swapped ρ marks)) = [] := by
  cases e with
  | none => rfl
  | some e => exact Expr.scopeErrors_swapped hnew hy (Option.some.inj h) herr

/-! The scopes that declarations leave behind correspond, too. -/

/-- No declaration becomes a second one by the renaming. -/
theorem Scopes.declareErrors_swapped {name : Token} (herr : scopes.declareErrors name = []) :
    (scopes.swapped ρ marks).declareErrors (name.swapped ρ (marks 0)) = [] := by
  unfold Scopes.declareErrors at herr ⊢
  rw [Token.swapped, Scopes.hasInner_swapped]
  split
  · next h => simp [h] at herr
  · rfl

theorem Scopes.foldl_introduce_swapped (ρ : Swap) (marks : Marks) : ∀ (params : List Token)
    (scopes : Scopes),
    (params.map (Token.swapped ρ (marks 0))).foldl
        (fun scopes param => scopes.introduce param.lexeme) (scopes.swapped ρ marks) =
      (params.foldl (fun scopes param => scopes.introduce param.lexeme) scopes).swapped ρ marks
  | [], _ => rfl
  | param :: params, scopes => by
    rw [List.map_cons, List.foldl_cons, List.foldl_cons, Token.swapped, Scopes.introduce_swapped,
      Scopes.foldl_introduce_swapped ρ marks params]

/-- The scope of renamed parameters is the renamed scope of the parameters. -/
theorem parameterScope_swapped (marked : Bool) (params : List Token) :
    parameterScope (scopes.swapped ρ marks) (params.map (Token.swapped ρ marked)) =
      (parameterScope scopes params).swapped ρ (marks.push marked) :=
  Scopes.foldl_introduce_swapped ρ (marks.push marked) params ([] :: scopes)

/-- Parameters with distinct names have distinct names after the renaming. -/
theorem parameterErrors_swapped (marks : Marks) : ∀ {params : List Token} {scopes : Scopes},
    parameterErrors scopes params = [] →
    parameterErrors (scopes.swapped ρ marks) (params.map (Token.swapped ρ (marks 0))) = []
  | [], _, _ => rfl
  | param :: params, scopes, herr => by
    simp only [parameterErrors, List.append_eq_nil_iff] at herr
    rw [List.map_cons, parameterErrors, Scopes.declareErrors_swapped herr.1, List.nil_append,
      Token.swapped, Scopes.introduce_swapped]
    exact parameterErrors_swapped marks herr.2

theorem Scopes.Lacks.foldl_introduce {name : String} : ∀ {params : List Token} {scopes : Scopes},
    scopes.Lacks name → name ∉ params.map Token.lexeme →
    (params.foldl (fun scopes param => scopes.introduce param.lexeme) scopes).Lacks name
  | [], _, h, _ => h
  | param :: params, _, h, hmem => by
    simp only [List.map_cons, List.mem_cons, not_or] at hmem
    exact (h.introduce (Ne.symm hmem.1)).foldl_introduce hmem.2

theorem Scopes.Lacks.parameterScope {name : String} {params : List Token} (h : scopes.Lacks name)
    (hmem : name ∉ params.map Token.lexeme) : (Nya.parameterScope scopes params).Lacks name :=
  h.enter.foldl_introduce hmem

/-- A name that does not occur in a statement is as fresh after it as before. -/
theorem Scopes.Lacks.after {name : String} : ∀ {s : Stmt} {scopes : Scopes}, scopes.Lacks name →
    name ∉ s.names → (s.after scopes).Lacks name
  | .var n _, _, h, hmem | .function _ n _ _, _, h, hmem => by
    simp only [Stmt.names, List.mem_cons, not_or] at hmem
    exact h.introduce (Ne.symm hmem.1)
  | .branch _ t none, scopes, h, hmem => by
    simp only [Stmt.names, List.mem_append, not_or] at hmem
    show (t.after scopes).Lacks name
    exact h.after hmem.2
  | .branch _ t (some e), _, h, hmem => by
    simp only [Stmt.names, List.mem_append, not_or] at hmem
    exact (h.after hmem.1.2).after hmem.2
  | .loop _ b, scopes, h, hmem => by
    simp only [Stmt.names, List.mem_append, not_or] at hmem
    show (b.after scopes).Lacks name
    exact h.after hmem.2
  | .expression _, _, h, _ | .print _, _, h, _ | .block _, _, h, _ | .ret _ _, _, h, _ => h

/-- A renamed statement leaves the renamed scopes. -/
theorem Stmt.Alpha.after_eq : ∀ {s s' : Stmt} {scopes : Scopes}, s.Alpha ρ marks s' →
    s'.after (scopes.swapped ρ marks) = (s.after scopes).swapped ρ marks
  | _, _, _, .expression .. | _, _, _, .print .. | _, _, _, .block .. | _, _, _, .ret .. => rfl
  | _, _, scopes, .var _ name _ => Scopes.introduce_swapped ρ marks scopes name.lexeme
  | .function _ name _ _, _, scopes, .function _ _ _ hname _ => by
    have h := Scopes.introduce_swapped ρ marks scopes name.lexeme
    rwa [hname] at h
  | _, _, _, .branch _ h => by
    rw [Stmt.after, Stmt.after, h.after_eq]
  | _, _, _, .branchElse _ ht he => by
    rw [Stmt.after, Stmt.after, ht.after_eq, he.after_eq]
  | _, _, _, .loop _ h => by
    rw [Stmt.after, Stmt.after, h.after_eq]

mutual

/-- **The depths of a statement are right for each statement it is related to.** -/
theorem Stmt.Alpha.resolve_eq : ∀ {marks : Marks} {s s' : Stmt} {scopes : Scopes},
    s.Alpha ρ marks s' → scopes.Lacks ρ.new → ρ.new ∉ s.names → s.resolve scopes = s →
    s'.resolve (scopes.swapped ρ marks) = s'
  | _, _, _, _, .expression _ e, hnew, hy, h =>
    congrArg Stmt.expression (Expr.resolve_swapped hnew hy (Stmt.expression.inj h))
  | _, _, _, _, .print _ e, hnew, hy, h =>
    congrArg Stmt.print (Expr.resolve_swapped hnew hy (Stmt.print.inj h))
  | marks, _, _, scopes, .var _ name init, hnew, hy, h => by
    simp only [Stmt.names, List.mem_cons, not_or] at hy
    rw [Stmt.resolve, Token.swapped, Scopes.declare_swapped,
      Expr.map_resolve_swapped (hnew.declare (Ne.symm hy.1)) hy.2 (Stmt.var.inj h).2]
  | _, _, _, _, .block marked hbody, hnew, hy, h => by
    rw [Stmt.resolve, ← Scopes.swapped_push ρ _ marked,
      hbody.resolveAll_eq hnew.enter hy (Stmt.block.inj h)]
  | _, _, _, _, .branch condition ht, hnew, hy, h => by
    simp only [Stmt.names, List.mem_append, not_or] at hy
    obtain ⟨hcond, hthen, -⟩ := Stmt.branch.inj h
    rw [Stmt.resolve, Expr.resolve_swapped hnew hy.1 hcond, ht.resolve_eq hnew hy.2 hthen]
  | _, _, _, _, .branchElse condition ht he, hnew, hy, h => by
    simp only [Stmt.names, List.mem_append, not_or] at hy
    obtain ⟨hcond, hthen, helse⟩ := Stmt.branch.inj h
    rw [Stmt.resolve, Expr.resolve_swapped hnew hy.1.1 hcond, ht.resolve_eq hnew hy.1.2 hthen,
      ht.after_eq, he.resolve_eq (hnew.after hy.1.2) hy.2 (Option.some.inj helse)]
  | _, _, _, _, .loop condition hb, hnew, hy, h => by
    simp only [Stmt.names, List.mem_append, not_or] at hy
    obtain ⟨hcond, hbody⟩ := Stmt.loop.inj h
    rw [Stmt.resolve, Expr.resolve_swapped hnew hy.1 hcond, hb.resolve_eq hnew hy.2 hbody]
  | marks, .function _ name _ _, _, scopes, .function _ params marked hname hbody, hnew, hy,
      h => by
    simp only [Stmt.names, List.mem_cons, List.mem_append, not_or] at hy
    have hscopes := Scopes.introduce_swapped ρ marks scopes name.lexeme
    rw [hname] at hscopes
    have hnew' := (hnew.introduce (Ne.symm hy.1)).parameterScope hy.2.1
    rw [Stmt.resolve, hscopes, parameterScope_swapped,
      hbody.resolveAll_eq hnew' hy.2.2 (Stmt.function.inj h).2.2.2]
  | _, _, _, _, .ret _ keyword value, hnew, hy, h =>
    congrArg (Stmt.ret keyword) (Expr.map_resolve_swapped hnew hy (Stmt.ret.inj h).2)

/-- Renamed statements are resolved one after the other, each in the scopes that those before it
leave. -/
theorem Stmt.AlphaAll.resolveAll_eq : ∀ {marks : Marks} {ss ss' : List Stmt} {scopes : Scopes},
    Stmt.AlphaAll ρ marks ss ss' → scopes.Lacks ρ.new → ρ.new ∉ Stmt.namesAll ss →
    Stmt.resolveAll scopes ss = ss → Stmt.resolveAll (scopes.swapped ρ marks) ss' = ss'
  | _, _, _, _, .nil _, _, _, _ => rfl
  | _, _, _, _, .cons hs hss, hnew, hy, h => by
    simp only [Stmt.namesAll, List.mem_append, not_or] at hy
    obtain ⟨hhead, htail⟩ := List.cons.inj h
    rw [Stmt.resolveAll, hs.resolve_eq hnew hy.1 hhead, hs.after_eq,
      hss.resolveAll_eq (hnew.after hy.1) hy.2 htail]

end

mutual

/-- **A statement related to one without faults has none.** -/
theorem Stmt.Alpha.scopeErrors_eq_nil : ∀ {marks : Marks} {s s' : Stmt} {scopes : Scopes}
    {inFunction : Bool}, s.Alpha ρ marks s' → scopes.Lacks ρ.new → ρ.new ∉ s.names →
    s.resolve scopes = s → s.scopeErrors inFunction scopes = [] →
    s'.scopeErrors inFunction (scopes.swapped ρ marks) = []
  | _, _, _, _, _, .expression _ e, hnew, hy, h, herr =>
    Expr.scopeErrors_swapped hnew hy (Stmt.expression.inj h) herr
  | _, _, _, _, _, .print _ e, hnew, hy, h, herr =>
    Expr.scopeErrors_swapped hnew hy (Stmt.print.inj h) herr
  | _, _, _, _, _, .var _ name init, hnew, hy, h, herr => by
    simp only [Stmt.names, List.mem_cons, not_or] at hy
    simp only [Stmt.scopeErrors, List.append_eq_nil_iff] at herr ⊢
    refine ⟨Scopes.declareErrors_swapped herr.1, ?_⟩
    rw [Token.swapped, Scopes.declare_swapped]
    exact Expr.scopeErrorsOption_swapped (hnew.declare (Ne.symm hy.1)) hy.2 (Stmt.var.inj h).2
      herr.2
  | _, _, _, _, _, .block marked hbody, hnew, hy, h, herr => by
    rw [Stmt.scopeErrors, ← Scopes.swapped_push ρ _ marked]
    exact hbody.scopeErrorsAll_eq_nil hnew.enter hy (Stmt.block.inj h) herr
  | _, _, _, _, _, .branch condition ht, hnew, hy, h, herr => by
    simp only [Stmt.names, List.mem_append, not_or] at hy
    obtain ⟨hcond, hthen, -⟩ := Stmt.branch.inj h
    simp only [Stmt.scopeErrors, List.append_eq_nil_iff] at herr ⊢
    exact ⟨Expr.scopeErrors_swapped hnew hy.1 hcond herr.1,
      ht.scopeErrors_eq_nil hnew hy.2 hthen herr.2⟩
  | _, _, _, _, _, .branchElse condition ht he, hnew, hy, h, herr => by
    simp only [Stmt.names, List.mem_append, not_or] at hy
    obtain ⟨hcond, hthen, helse⟩ := Stmt.branch.inj h
    simp only [Stmt.scopeErrors, List.append_eq_nil_iff, ht.after_eq] at herr ⊢
    exact ⟨⟨Expr.scopeErrors_swapped hnew hy.1.1 hcond herr.1.1,
      ht.scopeErrors_eq_nil hnew hy.1.2 hthen herr.1.2⟩,
      he.scopeErrors_eq_nil (hnew.after hy.1.2) hy.2 (Option.some.inj helse) herr.2⟩
  | _, _, _, _, _, .loop condition hb, hnew, hy, h, herr => by
    simp only [Stmt.names, List.mem_append, not_or] at hy
    obtain ⟨hcond, hbody⟩ := Stmt.loop.inj h
    simp only [Stmt.scopeErrors, List.append_eq_nil_iff] at herr ⊢
    exact ⟨Expr.scopeErrors_swapped hnew hy.1 hcond herr.1,
      hb.scopeErrors_eq_nil hnew hy.2 hbody herr.2⟩
  | marks, .function _ name _ _, _, scopes, _, .function id params marked hname hbody, hnew, hy,
      h, herr => by
    simp only [Stmt.names, List.mem_cons, List.mem_append, not_or] at hy
    have hscopes := Scopes.introduce_swapped ρ marks scopes name.lexeme
    have hdeclare := Scopes.hasInner_swapped ρ marks scopes name.lexeme
    rw [hname] at hscopes hdeclare
    have hnew' := (hnew.introduce (Ne.symm hy.1)).parameterScope hy.2.1
    simp only [Stmt.scopeErrors, List.append_eq_nil_iff, hscopes, parameterScope_swapped,
      Scopes.declareErrors, hdeclare] at herr ⊢
    refine ⟨⟨herr.1.1, ?_⟩,
      hbody.scopeErrorsAll_eq_nil hnew' hy.2.2 (Stmt.function.inj h).2.2.2 herr.2⟩
    rw [← Scopes.swapped_push ρ _ marked]
    exact parameterErrors_swapped (marks.push marked) herr.1.2
  | _, _, _, _, _, .ret _ keyword value, hnew, hy, h, herr => by
    simp only [Stmt.scopeErrors, List.append_eq_nil_iff] at herr ⊢
    exact ⟨herr.1, Expr.scopeErrorsOption_swapped hnew hy (Stmt.ret.inj h).2 herr.2⟩

/-- Renamed statements have no error if there was none before. -/
theorem Stmt.AlphaAll.scopeErrorsAll_eq_nil : ∀ {marks : Marks} {ss ss' : List Stmt}
    {scopes : Scopes} {inFunction : Bool}, Stmt.AlphaAll ρ marks ss ss' → scopes.Lacks ρ.new →
    ρ.new ∉ Stmt.namesAll ss → Stmt.resolveAll scopes ss = ss →
    Stmt.scopeErrorsAll inFunction scopes ss = [] →
    Stmt.scopeErrorsAll inFunction (scopes.swapped ρ marks) ss' = []
  | _, _, _, _, _, .nil _, _, _, _, _ => rfl
  | _, _, _, _, _, .cons hs hss, hnew, hy, h, herr => by
    simp only [Stmt.namesAll, List.mem_append, not_or] at hy
    obtain ⟨hhead, htail⟩ := List.cons.inj h
    simp only [Stmt.scopeErrorsAll, List.append_eq_nil_iff, hs.after_eq] at herr ⊢
    exact ⟨hs.scopeErrors_eq_nil hnew hy.1 hhead herr.1,
      hss.scopeErrorsAll_eq_nil (hnew.after hy.1) hy.2 htail herr.2⟩

end

mutual

/-- Related statements have the same references, at the same depths. -/
theorem Stmt.Alpha.depths_eq : ∀ {marks : Marks} {s s' : Stmt}, s.Alpha ρ marks s' →
    s'.references.map (fun r => (r.1, r.2.id, r.2.depth)) =
      s.references.map fun r => (r.1, r.2.id, r.2.depth)
  | _, _, _, .expression _ e | _, _, _, .print _ e => Expr.depths_swapped ρ _ e
  | _, _, _, .var _ _ e | _, _, _, .ret _ _ e => Expr.depthsOption_swapped ρ _ e
  | _, _, _, .block _ h | _, _, _, .function _ _ _ _ h => h.depths_eq
  | _, _, _, .branch c h | _, _, _, .loop c h => by
    simp only [Stmt.references, List.map_append, Expr.depths_swapped, h.depths_eq]
  | _, _, _, .branchElse c ht he => by
    simp only [Stmt.references, List.map_append, Expr.depths_swapped, ht.depths_eq, he.depths_eq]

/-- Renaming keeps the kinds, the numbers and the depths of all references. -/
theorem Stmt.AlphaAll.depths_eq : ∀ {marks : Marks} {ss ss' : List Stmt},
    Stmt.AlphaAll ρ marks ss ss' →
    (Stmt.referencesAll ss').map (fun r => (r.1, r.2.id, r.2.depth)) =
      (Stmt.referencesAll ss).map fun r => (r.1, r.2.id, r.2.depth)
  | _, _, _, .nil _ => rfl
  | _, _, _, .cons h hs => by
    simp only [Stmt.referencesAll, List.map_append, h.depths_eq, hs.depths_eq]

end

end

/-! ## Resolving again -/

/-- A reference is resolved by its name, which resolution does not change. -/
@[simp] theorem Reference.resolve_resolve (scopes : Scopes) (r : Reference) :
    (r.resolve scopes).resolve scopes = r.resolve scopes := rfl

/-- Resolving an expression twice is resolving it once. -/
theorem Expr.resolve_resolve (scopes : Scopes) (e : Expr) :
    (e.resolve scopes).resolve scopes = e.resolve scopes := by
  rw [Expr.resolve_eq_self_iff, Expr.resolve_eq_mapReferences, Expr.references_mapReferences]
  intro r hr
  obtain ⟨r₀, -, rfl⟩ := List.mem_map.mp hr
  rfl

/-- Faults are a matter of names, not of depths. -/
theorem Expr.scopeErrors_resolve {scopes : Scopes} {e : Expr} (h : e.scopeErrors scopes = []) :
    (e.resolve scopes).scopeErrors scopes = [] := by
  rw [Expr.scopeErrors_eq_nil_iff] at h ⊢
  rw [Expr.resolve_eq_mapReferences, Expr.references_mapReferences]
  intro r hr hread
  obtain ⟨r₀, hr₀, rfl⟩ := List.mem_map.mp hr
  exact h r₀ hr₀ hread

theorem Expr.map_resolve_resolve (scopes : Scopes) (e : Option Expr) :
    (e.map (Expr.resolve scopes)).map (Expr.resolve scopes) = e.map (Expr.resolve scopes) := by
  cases e with
  | none => rfl
  | some e => exact congrArg some (Expr.resolve_resolve scopes e)

theorem Expr.scopeErrorsOption_resolve {scopes : Scopes} {e : Option Expr}
    (h : Expr.scopeErrorsOption scopes e = []) :
    Expr.scopeErrorsOption scopes (e.map (Expr.resolve scopes)) = [] := by
  cases e with
  | none => rfl
  | some e => exact Expr.scopeErrors_resolve h

/-- A resolved statement declares what the statement does. -/
theorem Stmt.after_resolve : ∀ (s : Stmt) (scopes scopes' : Scopes),
    (s.resolve scopes).after scopes' = s.after scopes'
  | .var _ _, _, _ | .function _ _ _ _, _, _ | .expression _, _, _ | .print _, _, _
  | .block _, _, _ | .ret _ _, _, _ => rfl
  | .branch _ t none, scopes, scopes' => Stmt.after_resolve t scopes scopes'
  | .branch _ t (some e), scopes, scopes' => by
    rw [Stmt.resolve, Stmt.after, Stmt.after, Stmt.after_resolve t, Stmt.after_resolve e]
  | .loop _ b, scopes, scopes' => Stmt.after_resolve b scopes scopes'

mutual

/-- Resolving a statement twice is resolving it once, also in the scopes it opens. -/
theorem Stmt.resolve_resolve : ∀ (s : Stmt) (scopes : Scopes),
    (s.resolve scopes).resolve scopes = s.resolve scopes
  | .expression e, _ | .print e, _ => by simp only [Stmt.resolve, Expr.resolve_resolve]
  | .var _ e, _ | .ret _ e, _ => by simp only [Stmt.resolve, Expr.map_resolve_resolve]
  | .block body, scopes => by
    simp only [Stmt.resolve, Stmt.resolveAll_resolveAll body ([] :: scopes)]
  | .branch c t none, scopes => by
    simp only [Stmt.resolve, Expr.resolve_resolve, Stmt.resolve_resolve t scopes]
  | .branch c t (some e), scopes => by
    simp only [Stmt.resolve, Expr.resolve_resolve, Stmt.resolve_resolve t scopes,
      Stmt.after_resolve, Stmt.resolve_resolve e (t.after scopes)]
  | .loop c b, scopes => by
    simp only [Stmt.resolve, Expr.resolve_resolve, Stmt.resolve_resolve b scopes]
  | .function _ name params body, scopes => by
    simp only [Stmt.resolve,
      Stmt.resolveAll_resolveAll body (parameterScope (scopes.introduce name.lexeme) params)]

theorem Stmt.resolveAll_resolveAll : ∀ (ss : List Stmt) (scopes : Scopes),
    Stmt.resolveAll scopes (Stmt.resolveAll scopes ss) = Stmt.resolveAll scopes ss
  | [], _ => rfl
  | s :: ss, scopes => by
    simp only [Stmt.resolveAll, Stmt.resolve_resolve s scopes, Stmt.after_resolve,
      Stmt.resolveAll_resolveAll ss (s.after scopes)]

end

mutual

/-- Resolution brings no error about. -/
theorem Stmt.scopeErrors_resolve : ∀ {s : Stmt} {scopes : Scopes} {inFunction : Bool},
    s.scopeErrors inFunction scopes = [] → (s.resolve scopes).scopeErrors inFunction scopes = []
  | .expression _, _, _, h | .print _, _, _, h => Expr.scopeErrors_resolve h
  | .var _ _, _, _, h | .ret _ _, _, _, h => by
    simp only [Stmt.resolve, Stmt.scopeErrors, List.append_eq_nil_iff] at h ⊢
    exact ⟨h.1, Expr.scopeErrorsOption_resolve h.2⟩
  | .block body, _, _, h => Stmt.scopeErrorsAll_resolveAll h
  | .branch c t none, _, _, h => by
    simp only [Stmt.resolve, Stmt.scopeErrors, List.append_eq_nil_iff] at h ⊢
    exact ⟨Expr.scopeErrors_resolve h.1, Stmt.scopeErrors_resolve h.2⟩
  | .branch c t (some e), _, _, h => by
    simp only [Stmt.resolve, Stmt.scopeErrors, List.append_eq_nil_iff, Stmt.after_resolve] at h ⊢
    exact ⟨⟨Expr.scopeErrors_resolve h.1.1, Stmt.scopeErrors_resolve h.1.2⟩,
      Stmt.scopeErrors_resolve h.2⟩
  | .loop c b, _, _, h => by
    simp only [Stmt.resolve, Stmt.scopeErrors, List.append_eq_nil_iff] at h ⊢
    exact ⟨Expr.scopeErrors_resolve h.1, Stmt.scopeErrors_resolve h.2⟩
  | .function _ name params body, _, _, h => by
    simp only [Stmt.resolve, Stmt.scopeErrors, List.append_eq_nil_iff] at h ⊢
    exact ⟨h.1, Stmt.scopeErrorsAll_resolveAll h.2⟩

theorem Stmt.scopeErrorsAll_resolveAll : ∀ {ss : List Stmt} {scopes : Scopes} {inFunction : Bool},
    Stmt.scopeErrorsAll inFunction scopes ss = [] →
    Stmt.scopeErrorsAll inFunction scopes (Stmt.resolveAll scopes ss) = []
  | [], _, _, _ => rfl
  | s :: ss, _, _, h => by
    simp only [Stmt.resolveAll, Stmt.scopeErrorsAll, List.append_eq_nil_iff,
      Stmt.after_resolve] at h ⊢
    exact ⟨Stmt.scopeErrors_resolve h.1, Stmt.scopeErrorsAll_resolveAll h.2⟩

end

end Nya
