import Nya.Proofs.Scope.Scoped

/-!
# Pending names

While its initializer is read, a name is pending in its scope. A program without faults reads no
pending name, but it may write one: the initializer of a local may assign to that local. These are
the only references that are pending, and each stands in the initializer of its own name.

A program without faults declares no name twice in a scope. So what is opened for a scope, the body
of a block or a function with its parameters, declares each of its names once.

* `Visit.isPending`, `Visit.Tidy`, `Accounted`
* `Stmt.resolve_accounted`, `resolve_accounted`: all references of a program without faults are
  accounted for
-/

namespace Nya

variable {levels : Levels} {vs : List Visit}

/-! ## Names of a scope -/

theorem Scope.has_introduce (scope : Scope) (name other : String) :
    ((scope.declare name).define name).has other = (decide (other = name) || scope.has other) := by
  by_cases h : other = name
  · subst h
    simp [has, define]
  · simp [has, define, ready?_mark_of_ne h, ready?_declare_of_ne h, h]

/-- The names of the parameters that an opener brings. -/
def Opener.params : Opener → List String
  | block _ => []
  | function d => d.params.map Token.lexeme

/-- The names that the scope of an opener has in the end, in the order of their declarations. -/
def Opener.names (opener : Opener) : List String :=
  opener.params ++ opener.body.filterMap Stmt.declared?

@[simp] theorem Stmt.declared?_resolve (scopes : Scopes) (s : Stmt) :
    (s.resolve scopes).declared? = s.declared? := by
  cases s with
  | branch condition thenBranch elseBranch => cases elseBranch <;> rfl
  | _ => rfl

@[simp] theorem Stmt.filterMap_declared?_resolveAll (scopes : Scopes) (ss : List Stmt) :
    (Stmt.resolveAll scopes ss).filterMap Stmt.declared? = ss.filterMap Stmt.declared? := by
  induction ss generalizing scopes with
  | nil => rfl
  | cons s ss ih =>
    rw [resolveAll, List.filterMap_cons, List.filterMap_cons, declared?_resolve, ih]

/-- A declaration without a fault finds its name new in the scope. -/
theorem Level.has_eq_false {level : Level} {outer : Levels} {name : Token}
    (h : Scopes.declareErrors (Levels.scopes (level :: outer)) name = []) :
    level.scope.has name.lexeme = false := by
  cases hhas : level.scope.has name.lexeme with
  | false => rfl
  | true => simp [Scopes.declareErrors, Levels.scopes, Scopes.hasInner, hhas] at h

/-- Names that come after a new one, and are new then, are new and differ from it. -/
theorem Scope.nodup_cons {scope : Scope} {name : String} {names : List String}
    (hnew : scope.has name = false) (hnodup : names.Nodup)
    (hfresh : ∀ other ∈ names, ((scope.declare name).define name).has other = false) :
    (name :: names).Nodup ∧ ∀ other ∈ name :: names, scope.has other = false := by
  have hrest : ∀ other ∈ names, other ≠ name ∧ scope.has other = false := by
    intro other hother
    have hhas := hfresh other hother
    rw [has_introduce, Bool.or_eq_false_iff, decide_eq_false_iff_not] at hhas
    exact hhas
  refine ⟨List.nodup_cons.mpr ⟨fun hmem => (hrest name hmem).1 rfl, hnodup⟩, ?_⟩
  intro other hother
  rcases List.mem_cons.mp hother with rfl | hother
  · exact hnew
  · exact (hrest other hother).2

/-- What a statement that declares a name does to the levels, and that the name is new. -/
theorem Stmt.introduces {s : Stmt} {name : String} (h : s.declared? = some name)
    {inFunction : Bool} {level : Level} {outer : Levels}
    (herrors : s.scopeErrors inFunction (Levels.scopes (level :: outer)) = []) :
    level.scope.has name = false ∧ s.afterLevels (level :: outer) =
      ⟨level.opener, (level.scope.declare name).define name⟩ :: outer := by
  cases s with
  | var token init =>
    cases h
    rw [scopeErrors, List.append_eq_nil_iff] at herrors
    exact ⟨Level.has_eq_false herrors.1, rfl⟩
  | function id token params body =>
    cases h
    rw [scopeErrors, List.append_eq_nil_iff, List.append_eq_nil_iff] at herrors
    exact ⟨Level.has_eq_false herrors.1.1, rfl⟩
  | _ => cases h

/-- **Statements without faults declare each name once, and none that the scope has already.** -/
theorem Stmt.nodup_declared {inFunction : Bool} {ss : List Stmt} {level : Level} {outer : Levels}
    (hregular : Stmt.RegularAll ss)
    (herrors : Stmt.scopeErrorsAll inFunction (Levels.scopes (level :: outer)) ss = []) :
    (ss.filterMap Stmt.declared?).Nodup ∧
      ∀ name ∈ ss.filterMap Stmt.declared?, level.scope.has name = false := by
  induction ss generalizing level with
  | nil => exact ⟨List.nodup_nil, fun name h => (List.not_mem_nil h).elim⟩
  | cons s ss ih =>
    rw [scopeErrorsAll, List.append_eq_nil_iff, ← scopes_afterLevels] at herrors
    obtain ⟨hs, hss⟩ := herrors
    cases hname : s.declared? with
    | none =>
      rw [afterLevels_eq _ (declares_of_declared? hname) hregular.1] at hss
      rw [List.filterMap_cons_none hname]
      exact ih hregular.2 hss
    | some name =>
      obtain ⟨hnew, hafter⟩ := introduces hname hs
      rw [hafter] at hss
      obtain ⟨hnodup, hfresh⟩ := ih hregular.2 hss
      rw [List.filterMap_cons_some hname]
      exact Scope.nodup_cons hnew hnodup hfresh

/-- Parameters without faults have each name once, and are in the scope of the body then. -/
theorem nodup_params {params : List Token} {level : Level} {outer : Levels}
    (herrors : parameterErrors (Levels.scopes (level :: outer)) params = []) :
    ((params.map Token.lexeme).Nodup ∧
        ∀ name ∈ params.map Token.lexeme, level.scope.has name = false) ∧
      ∃ scope, params.foldl (fun levels param => Levels.introduce levels param.lexeme)
          (level :: outer) = ⟨level.opener, scope⟩ :: outer ∧
        ∀ name, name ∈ params.map Token.lexeme ∨ level.scope.has name = true →
          scope.has name = true := by
  induction params generalizing level with
  | nil =>
    refine ⟨⟨List.nodup_nil, fun name h => (List.not_mem_nil h).elim⟩, level.scope, rfl, ?_⟩
    rintro name (h | h)
    · exact (List.not_mem_nil h).elim
    · exact h
  | cons param params ih =>
    rw [parameterErrors, List.append_eq_nil_iff, ← Levels.scopes_introduce] at herrors
    obtain ⟨hparam, hparams⟩ := herrors
    have hrest := @ih ⟨level.opener, (level.scope.declare param.lexeme).define param.lexeme⟩ hparams
    obtain ⟨⟨hnodup, hfresh⟩, scope, hfold, hscope⟩ := hrest
    refine ⟨Scope.nodup_cons (Level.has_eq_false hparam) hnodup hfresh, scope, hfold, ?_⟩
    intro name hname
    refine hscope name ?_
    rw [Scope.has_introduce, Bool.or_eq_true, decide_eq_true_iff]
    rcases hname with hname | hname
    · rcases List.mem_cons.mp hname with rfl | hname
      · exact .inr (.inl rfl)
      · exact .inl hname
    · exact .inr (.inr hname)

/-- A function without faults declares each name once, its parameters included. -/
theorem Opener.nodup_function {inFunction : Bool} {id : Nat} {name : Token} {params : List Token}
    {body resolved : List Stmt} (hregular : Stmt.RegularAll body)
    (hresolved : resolved.filterMap Stmt.declared? = body.filterMap Stmt.declared?)
    (hparams : parameterErrors ([] :: levels.scopes) params = [])
    (hbody : Stmt.scopeErrorsAll inFunction
      (Levels.scopes (levels.call ⟨id, name, params, resolved⟩)) body = []) :
    (Opener.function ⟨id, name, params, resolved⟩).names.Nodup := by
  have h := @nodup_params params ⟨.function ⟨id, name, params, resolved⟩, []⟩ levels hparams
  obtain ⟨⟨hnodup, -⟩, scope, hfold, hscope⟩ := h
  rw [Levels.call, Levels.enter, hfold] at hbody
  obtain ⟨hdeclared, hfresh⟩ := Stmt.nodup_declared hregular hbody
  rw [names, Opener.body, hresolved]
  refine List.nodup_append.mpr ⟨hnodup, hdeclared, ?_⟩
  rintro name hname other hother rfl
  have hhas := hfresh name hother
  rw [hscope name (.inl hname)] at hhas
  cases hhas

/-! ## Visits that are accounted for -/

/-- Whether the name was being initialized in its own scope when the reference was visited. -/
def Visit.isPending (v : Visit) : Bool := v.levels.scopes.isPending v.reference.name.lexeme

/-- No outer level has a pending name, and no level is opened for a scope that has a name twice. -/
structure Levels.Tidy (levels : Levels) : Prop where
  settled : Levels.Settled levels.tail
  nodup : ∀ opener ∈ levels.map Level.opener, opener.names.Nodup

/--
The reference was visited at tidy levels, and the name was not pending unless it is the given one,
the name that the statement around the reference declares.
-/
def Accounted (vs : List Visit) (declared : Option String) (r : Access × Reference) : Prop :=
  ∃ v ∈ vs, v.entry = r ∧ v.levels.Tidy ∧ (v.isPending = true → declared = some r.2.name.lexeme)

/-- Every reference of the expression is accounted for. -/
def Expr.Accounted (vs : List Visit) (declared : Option String) (e : Expr) : Prop :=
  ∀ r ∈ e.references, Nya.Accounted vs declared r

mutual

/-- Every reference of the statement is accounted for. -/
def Stmt.Accounted (vs : List Visit) : Stmt → Prop
  | .expression e | .print e => e.Accounted vs none
  | .var name init => ∀ e ∈ init, e.Accounted vs (some name.lexeme)
  | .block body | .function _ _ _ body => Stmt.AccountedAll vs body
  | .branch condition thenBranch none => condition.Accounted vs none ∧ thenBranch.Accounted vs
  | .branch condition thenBranch (some elseBranch) =>
    condition.Accounted vs none ∧ thenBranch.Accounted vs ∧ elseBranch.Accounted vs
  | .loop condition body => condition.Accounted vs none ∧ body.Accounted vs
  | .ret _ value => ∀ e ∈ value, e.Accounted vs none

/-- Every reference of the statements is accounted for. -/
def Stmt.AccountedAll (vs : List Visit) : List Stmt → Prop
  | [] => True
  | s :: ss => s.Accounted vs ∧ Stmt.AccountedAll vs ss

end

theorem Stmt.accountedAll_iff {ss : List Stmt} :
    Stmt.AccountedAll vs ss ↔ ∀ s ∈ ss, s.Accounted vs := by
  induction ss with
  | nil => simp [AccountedAll]
  | cons s ss ih => simp [AccountedAll, ih]

/-! ## Resolution -/

/-- Levels without pending names, none of which has a name twice. -/
structure Levels.Calm (levels : Levels) : Prop where
  settled : levels.Settled
  nodup : ∀ opener ∈ levels.map Level.opener, opener.names.Nodup

namespace Levels

theorem openers_updateInner (f : Scope → Scope) (levels : Levels) :
    (levels.updateInner f).map Level.opener = levels.map Level.opener := by
  cases levels <;> rfl

theorem Calm.tidy (h : levels.Calm) : levels.Tidy := ⟨h.settled.tail, h.nodup⟩

theorem Calm.tidy_declare (h : levels.Calm) (name : String) :
    (levels.declare name).Tidy := by
  refine ⟨h.settled.declare_tail name, ?_⟩
  rw [declare, openers_updateInner]
  exact h.nodup

theorem Calm.introduce (h : levels.Calm) (name : String) :
    (levels.introduce name).Calm := by
  refine ⟨h.settled.introduce name, ?_⟩
  rw [Levels.introduce, define, openers_updateInner, declare, openers_updateInner]
  exact h.nodup

theorem Calm.enter (h : levels.Calm) {opener : Opener} (hnodup : opener.names.Nodup) :
    (levels.enter opener).Calm :=
  ⟨h.settled.enter opener, List.forall_mem_cons.mpr ⟨hnodup, h.nodup⟩⟩

theorem Calm.call (h : levels.Calm) {d : Declaration} (hnodup : (Opener.function d).names.Nodup) :
    (levels.call d).Calm := by
  have key : ∀ (params : List Token) (levels : Levels), levels.Calm →
      Calm (params.foldl (fun levels param => levels.introduce param.lexeme) levels) := by
    intro params
    induction params with
    | nil => intro levels h; exact h
    | cons param params ih => intro levels h; exact ih _ (h.introduce param.lexeme)
  exact key d.params _ (h.enter hnodup)

theorem isPending_of_settled (h : levels.Settled) (name : String) :
    levels.scopes.isPending name = false := by
  refine Scopes.isPending_of_settled ?_ name
  intro scope hscope
  obtain ⟨level, hlevel, rfl⟩ := List.mem_map.mp hscope
  exact h level hlevel

/-- While a name is declared, no other name is pending. -/
theorem eq_of_isPending_declare (h : levels.Settled) {name other : String}
    (hpending : (levels.declare name).scopes.isPending other = true) : other = name := by
  by_cases ho : other = name
  · exact ho
  · have hfalse := isPending_of_settled h other
    cases levels with
    | nil => cases hpending
    | cons level outer =>
      simp only [declare, updateInner, scopes, List.map_cons, Scopes.isPending,
        Scope.ready?_declare_of_ne ho] at hpending hfalse
      exact absurd (hfalse.symm.trans hpending) Bool.false_ne_true

end Levels

theorem Stmt.afterLevels_calm : ∀ {levels : Levels} (s : Stmt), levels.Calm →
    (s.afterLevels levels).Calm
  | _, .var name _, h | _, .function _ name _ _, h => h.introduce name.lexeme
  | _, .branch _ t none, h => Stmt.afterLevels_calm t h
  | _, .branch _ t (some e), h => Stmt.afterLevels_calm e (Stmt.afterLevels_calm t h)
  | _, .loop _ body, h => Stmt.afterLevels_calm body h
  | _, .expression _, h | _, .print _, h | _, .block _, h
  | _, .ret _ _, h => h

theorem Expr.resolve_accounted {declared : Option String} {e : Expr}
    (hvisits : e.visits levels ⊆ vs) (htidy : levels.Tidy)
    (hpending : ∀ name, levels.scopes.isPending name = true → declared = some name) :
    (e.resolve levels.scopes).Accounted vs declared :=
  fun r hr => ⟨⟨r.1, r.2, levels⟩, hvisits (List.mem_map.mpr ⟨r, hr, rfl⟩), rfl, htidy,
    fun h => hpending _ h⟩

/-- Where no name is pending, all references are accounted for. -/
theorem Expr.resolve_accounted_calm {e : Expr} (hvisits : e.visits levels ⊆ vs) (h : levels.Calm) :
    (e.resolve levels.scopes).Accounted vs none := by
  refine resolve_accounted hvisits h.tidy ?_
  intro name hpending
  rw [Levels.isPending_of_settled h.settled] at hpending
  cases hpending

theorem Expr.resolve_accounted_option {e : Option Expr} (hvisits : Expr.visitsOption levels e ⊆ vs)
    (h : levels.Calm) :
    ∀ e' ∈ e.map (Expr.resolve levels.scopes), e'.Accounted vs none := by
  intro e' he
  obtain ⟨e₀, rfl, rfl⟩ := Option.map_eq_some_iff.mp he
  exact resolve_accounted_calm hvisits h

/-- In the initializer of a name, only that name may be pending. -/
theorem Expr.resolve_accounted_initializer {name : String} {e : Option Expr}
    (hvisits : Expr.visitsOption (levels.declare name) e ⊆ vs) (h : levels.Calm) :
    ∀ e' ∈ e.map (Expr.resolve (levels.declare name).scopes),
      e'.Accounted vs (some name) := by
  intro e' he
  obtain ⟨e₀, rfl, rfl⟩ := Option.map_eq_some_iff.mp he
  refine resolve_accounted hvisits (h.tidy_declare name) ?_
  intro other hpending
  rw [Levels.eq_of_isPending_declare h.settled hpending]

mutual

/-- **All references of a statement without faults are accounted for once it is resolved.** -/
theorem Stmt.resolve_accounted : ∀ {vs : List Visit} {inFunction : Bool} {levels : Levels}
    {s : Stmt}, s.Regular → levels.Calm → s.scopeErrors inFunction levels.scopes = [] →
    s.visits levels ⊆ vs → (s.resolve levels.scopes).Accounted vs
  | _, _, levels, .expression e, _, hc, _, hv | _, _, levels, .print e, _, hc, _, hv =>
    Expr.resolve_accounted_calm hv hc
  | _, _, levels, .var name init, _, hc, _, hv => by
    rw [Stmt.resolve, ← Levels.scopes_declare]
    exact Expr.resolve_accounted_initializer hv hc
  | vs, _, levels, .block body, hr, hc, he, hv => by
    have hnodup : (Opener.block (Stmt.resolveAll ([] :: levels.scopes) body)).names.Nodup := by
      rw [Opener.names, Opener.body, Stmt.filterMap_declared?_resolveAll]
      exact (@Stmt.nodup_declared _ _ ⟨.block body, []⟩ levels hr he).1
    rw [Stmt.resolve, Stmt.Accounted]
    exact Stmt.resolveAll_accounted hr (hc.enter hnodup) he hv
  | _, _, levels, .branch c t none, hr, hc, he, hv => by
    rw [Stmt.scopeErrors, List.append_eq_nil_iff] at he
    rw [Stmt.visits, List.append_subset] at hv
    rw [Stmt.resolve, Stmt.Accounted]
    exact ⟨Expr.resolve_accounted_calm hv.1 hc, Stmt.resolve_accounted hr.2 hc he.2 hv.2⟩
  | _, _, levels, .branch c t (some e), hr, hc, he, hv => by
    rw [Stmt.scopeErrors, List.append_eq_nil_iff, List.append_eq_nil_iff,
      ← Stmt.scopes_afterLevels] at he
    rw [Stmt.visits, List.append_subset, List.append_subset] at hv
    rw [Stmt.resolve, ← Stmt.scopes_afterLevels, Stmt.Accounted]
    exact ⟨Expr.resolve_accounted_calm hv.1.1 hc, Stmt.resolve_accounted hr.1.2 hc he.1.2 hv.1.2,
      Stmt.resolve_accounted hr.2.2 (Stmt.afterLevels_calm t hc) he.2 hv.2⟩
  | _, _, levels, .loop c body, hr, hc, he, hv => by
    rw [Stmt.scopeErrors, List.append_eq_nil_iff] at he
    rw [Stmt.visits, List.append_subset] at hv
    rw [Stmt.resolve, Stmt.Accounted]
    exact ⟨Expr.resolve_accounted_calm hv.1 hc, Stmt.resolve_accounted hr.2 hc he.2 hv.2⟩
  | vs, _, levels, .function id name params body, hr, hc, he, hv => by
    rw [Stmt.scopeErrors, List.append_eq_nil_iff, List.append_eq_nil_iff,
      ← Levels.scopes_introduce] at he
    obtain ⟨⟨-, hparams⟩, hbody⟩ := he
    -- The levels of the body name the resolved body, which declares what the body declares.
    have hscopes := Levels.scopes_call (levels.introduce name.lexeme) ⟨id, name, params,
      Stmt.resolveAll (parameterScope (levels.introduce name.lexeme).scopes params) body⟩
    rw [← hscopes] at hbody
    have hnodup :=
      Opener.nodup_function hr (Stmt.filterMap_declared?_resolveAll _ body) hparams hbody
    have hall := Stmt.resolveAll_accounted hr ((hc.introduce name.lexeme).call hnodup) hbody hv
    rw [hscopes, Levels.scopes_introduce] at hall
    rw [Stmt.resolve, Stmt.Accounted]
    exact hall
  | _, _, levels, .ret _ value, _, hc, _, hv => by
    rw [Stmt.resolve, Stmt.Accounted]
    exact Expr.resolve_accounted_option hv hc

/-- The same of statements one after another. -/
theorem Stmt.resolveAll_accounted : ∀ {vs : List Visit} {inFunction : Bool} {levels : Levels}
    {ss : List Stmt}, Stmt.RegularAll ss → levels.Calm →
    Stmt.scopeErrorsAll inFunction levels.scopes ss = [] → Stmt.visitsAll levels ss ⊆ vs →
    Stmt.AccountedAll vs (Stmt.resolveAll levels.scopes ss)
  | _, _, _, [], _, _, _, _ => trivial
  | _, _, levels, s :: ss, hr, hc, he, hv => by
    rw [Stmt.scopeErrorsAll, List.append_eq_nil_iff, ← Stmt.scopes_afterLevels] at he
    rw [Stmt.visitsAll, List.append_subset] at hv
    rw [Stmt.resolveAll, Stmt.AccountedAll, ← Stmt.scopes_afterLevels]
    exact ⟨Stmt.resolve_accounted hr.1 hc he.1 hv.1,
      Stmt.resolveAll_accounted hr.2 (Stmt.afterLevels_calm s hc) he.2 hv.2⟩

end

/-- **All references of a program without faults are accounted for.** -/
theorem resolve_accounted {program : List Stmt} (hregular : Stmt.RegularAll program)
    (herrors : scopeErrors program = []) (hvisits : visits program ⊆ vs) :
    ∀ s ∈ resolve program, s.Accounted vs := by
  have hcalm : Levels.Calm [] :=
    ⟨fun _ h => (List.not_mem_nil h).elim, fun _ h => (List.not_mem_nil h).elim⟩
  exact Stmt.accountedAll_iff.mp (Stmt.resolveAll_accounted hregular hcalm herrors hvisits)

end Nya
