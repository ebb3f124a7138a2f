import Nya.Proofs.Scope.Visits

/-!
# Programs in place

A resolved piece of program is *scoped* at some levels if every reference in it was visited with
just the levels that its place in the program gives. A program that is *regular*, so that no branch
and no loop has a bare declaration as its body, is scoped once it is resolved; and if resolution
found no faults, each variable that is read is ready where it was found.
-/

namespace Nya

variable {levels : Levels}

/-! ## Regular programs -/

/-- Whether a statement declares a name in the scope around it. -/
def Stmt.declares : Stmt → Bool
  | .var _ _ | .function _ _ _ _ => true
  | _ => false

/-- The name that a statement declares in the scope around it. -/
def Stmt.declared? : Stmt → Option String
  | .var name _ | .function _ name _ _ => some name.lexeme
  | _ => none

theorem Stmt.declared?_of_declares {s : Stmt} (h : s.declares = false) : s.declared? = none := by
  cases s with
  | var name init => cases h
  | function id name params body => cases h
  | _ => rfl

theorem Stmt.declares_of_declared? {s : Stmt} (h : s.declared? = none) : s.declares = false := by
  cases s with
  | var name init => cases h
  | function id name params body => cases h
  | _ => rfl

mutual

/-- No branch and no loop in the statement has a bare declaration as its body. -/
def Stmt.Regular : Stmt → Prop
  | .block body | .function _ _ _ body => Stmt.RegularAll body
  | .branch _ thenBranch none => thenBranch.declares = false ∧ thenBranch.Regular
  | .branch _ thenBranch (some elseBranch) =>
    (thenBranch.declares = false ∧ thenBranch.Regular) ∧
      elseBranch.declares = false ∧ elseBranch.Regular
  | .loop _ body => body.declares = false ∧ body.Regular
  | .expression _ | .print _ | .var _ _ | .ret _ _ => True

/-- Every one of the statements is regular. -/
def Stmt.RegularAll : List Stmt → Prop
  | [] => True
  | s :: ss => s.Regular ∧ Stmt.RegularAll ss

end

theorem Stmt.regularAll_iff {ss : List Stmt} : Stmt.RegularAll ss ↔ ∀ s ∈ ss, s.Regular := by
  induction ss with
  | nil => simp [RegularAll]
  | cons s ss ih => simp [RegularAll, ih]

/-- A regular statement that declares nothing leaves the levels as they are. -/
theorem Stmt.afterLevels_eq : ∀ (levels : Levels) {s : Stmt}, s.declares = false → s.Regular →
    s.afterLevels levels = levels
  | levels, .var _ _, h, _ | levels, .function _ _ _ _, h, _ => by simp [declares] at h
  | levels, .branch _ t none, _, h => by
    rw [afterLevels, afterLevels_eq levels h.1 h.2]
  | levels, .branch _ t (some e), _, h => by
    rw [afterLevels, afterLevels_eq levels h.1.1 h.1.2, afterLevels_eq levels h.2.1 h.2.2]
  | levels, .loop _ body, _, h => by
    rw [afterLevels, afterLevels_eq levels h.1 h.2]
  | levels, .expression _, _, _ | levels, .print _, _, _ | levels, .block _, _, _
  | levels, .ret _ _, _, _ => rfl

@[simp] theorem Stmt.declares_resolve (scopes : Scopes) (s : Stmt) :
    (s.resolve scopes).declares = s.declares := by
  cases s with
  | branch c t e => cases e <;> rfl
  | _ => rfl

mutual

/-- Resolution keeps statements regular. -/
theorem Stmt.Regular.resolve : ∀ (scopes : Scopes) {s : Stmt}, s.Regular →
    (s.resolve scopes).Regular
  | scopes, .block body, h => by
    rw [Stmt.resolve, Regular]
    exact RegularAll.resolveAll _ h
  | scopes, .function _ _ _ body, h => by
    rw [Stmt.resolve, Regular]
    exact RegularAll.resolveAll _ h
  | scopes, .branch _ t none, h => by
    rw [Stmt.resolve, Regular, declares_resolve]
    exact ⟨h.1, Regular.resolve _ h.2⟩
  | scopes, .branch _ t (some e), h => by
    rw [Stmt.resolve, Regular, declares_resolve, declares_resolve]
    exact ⟨⟨h.1.1, Regular.resolve _ h.1.2⟩, h.2.1, Regular.resolve _ h.2.2⟩
  | scopes, .loop _ body, h => by
    rw [Stmt.resolve, Regular, declares_resolve]
    exact ⟨h.1, Regular.resolve _ h.2⟩
  | _, .expression _, _ | _, .print _, _ | _, .var _ _, _ | _, .ret _ _, _ => trivial

/-- The same of statements one after another. -/
theorem Stmt.RegularAll.resolveAll : ∀ (scopes : Scopes) {ss : List Stmt}, RegularAll ss →
    RegularAll (Stmt.resolveAll scopes ss)
  | _, [], _ => trivial
  | scopes, s :: ss, h => by
    rw [Stmt.resolveAll, RegularAll]
    exact ⟨Regular.resolve scopes h.1, RegularAll.resolveAll _ h.2⟩

end

/-- Resolution does not change what a statement declares. -/
@[simp] theorem Stmt.afterLevels_resolve : ∀ (scopes : Scopes) (levels : Levels) (s : Stmt),
    (s.resolve scopes).afterLevels levels = s.afterLevels levels
  | scopes, levels, .branch _ t none => by
    rw [resolve, afterLevels, afterLevels, afterLevels_resolve _ levels t]
  | scopes, levels, .branch _ t (some e) => by
    rw [resolve, afterLevels, afterLevels, afterLevels_resolve _ _ t, afterLevels_resolve _ _ e]
  | scopes, levels, .loop _ body => by
    rw [resolve, afterLevels, afterLevels, afterLevels_resolve _ levels body]
  | scopes, levels, .var _ _ | scopes, levels, .function _ _ _ _
  | scopes, levels, .expression _ | scopes, levels, .print _
  | scopes, levels, .block _ | scopes, levels, .ret _ _ => by
    simp [resolve, afterLevels]

/-! ## Scoped trees -/

/-- Every reference of the expression was visited with these levels. -/
def Expr.Scoped (vs : List Visit) (levels : Levels) (e : Expr) : Prop :=
  ∀ r ∈ e.references, (⟨r.1, r.2, levels⟩ : Visit) ∈ vs

theorem Expr.mem_referencesAll {es : List Expr} {e : Expr} (he : e ∈ es)
    {r : Access × Reference} (hr : r ∈ e.references) : r ∈ Expr.referencesAll es := by
  induction es with
  | nil => cases he
  | cons e' es ih =>
    rw [Expr.referencesAll, List.mem_append]
    rcases List.mem_cons.mp he with rfl | he
    · exact Or.inl hr
    · exact Or.inr (ih he)

mutual

/-- Every reference of the statement was visited with the levels of its place. -/
def Stmt.Scoped (vs : List Visit) (levels : Levels) : Stmt → Prop
  | .expression e | .print e => e.Scoped vs levels
  | .var name init => ∀ e ∈ init, e.Scoped vs (levels.declare name.lexeme)
  | .block body => Stmt.ScopedAll vs (levels.enter (.block body)) body
  | .branch condition thenBranch none =>
    condition.Scoped vs levels ∧ thenBranch.declares = false ∧ thenBranch.Scoped vs levels
  | .branch condition thenBranch (some elseBranch) =>
    (condition.Scoped vs levels ∧ thenBranch.declares = false ∧ thenBranch.Scoped vs levels) ∧
      elseBranch.declares = false ∧ elseBranch.Scoped vs levels
  | .loop condition body =>
    condition.Scoped vs levels ∧ body.declares = false ∧ body.Scoped vs levels
  | .function id name params body =>
    Stmt.ScopedAll vs ((levels.introduce name.lexeme).call ⟨id, name, params, body⟩) body
  | .ret _ value => ∀ e ∈ value, e.Scoped vs levels

/-- Each statement is scoped at the levels that the ones before it leave behind. -/
def Stmt.ScopedAll (vs : List Visit) (levels : Levels) : List Stmt → Prop
  | [] => True
  | s :: ss => s.Scoped vs levels ∧ Stmt.ScopedAll vs (s.afterLevels levels) ss

end

/-- The body of the function is scoped inside the given levels. -/
def Declaration.Scoped (vs : List Visit) (levels : Levels) (d : Declaration) : Prop :=
  Stmt.ScopedAll vs (levels.call d) d.body

/-- A scoped statement that declares nothing leaves the levels as they are. -/
theorem Stmt.Scoped.afterLevels_eq : ∀ {vs : List Visit} {levels : Levels} {s : Stmt},
    s.Scoped vs levels → s.declares = false → s.afterLevels levels = levels
  | _, _, .var _ _, _, h | _, _, .function _ _ _ _, _, h => by simp [declares] at h
  | _, levels, .branch _ t none, h, _ => by
    rw [afterLevels, Scoped.afterLevels_eq h.2.2 h.2.1]
  | _, levels, .branch _ t (some e), h, _ => by
    rw [afterLevels, Scoped.afterLevels_eq h.1.2.2 h.1.2.1, Scoped.afterLevels_eq h.2.2 h.2.1]
  | _, levels, .loop _ body, h, _ => by
    rw [afterLevels, Scoped.afterLevels_eq h.2.2 h.2.1]
  | _, _, .expression _, _, _ | _, _, .print _, _, _ | _, _, .block _, _, _
  | _, _, .ret _ _, _, _ => rfl

theorem Expr.resolve_scoped {vs : List Visit} {e : Expr} (h : e.visits levels ⊆ vs) :
    (e.resolve levels.scopes).Scoped vs levels :=
  fun r hr => h (List.mem_map.mpr ⟨r, hr, rfl⟩)

theorem Expr.resolve_scoped_option {vs : List Visit} {e : Option Expr}
    (h : Expr.visitsOption levels e ⊆ vs) :
    ∀ e' ∈ e.map (Expr.resolve levels.scopes), e'.Scoped vs levels := by
  intro e' he
  obtain ⟨e₀, rfl, rfl⟩ := Option.map_eq_some_iff.mp he
  exact Expr.resolve_scoped h

mutual

/-- **A regular statement is scoped once it is resolved.** -/
theorem Stmt.resolve_scoped : ∀ {vs : List Visit} {levels : Levels} {s : Stmt}, s.Regular →
    s.visits levels ⊆ vs → (s.resolve levels.scopes).Scoped vs levels
  | vs, levels, .expression e, _, h | vs, levels, .print e, _, h => Expr.resolve_scoped h
  | vs, levels, .var name init, _, h => by
    rw [Stmt.resolve, ← Levels.scopes_declare]
    exact Expr.resolve_scoped_option h
  | vs, levels, .block body, hr, h => by
    rw [Stmt.resolve, Stmt.Scoped]
    exact Stmt.resolveAll_scoped hr h
  | vs, levels, .branch c t none, hr, h => by
    rw [Stmt.visits, List.append_subset] at h
    rw [Stmt.resolve, Stmt.Scoped, Stmt.declares_resolve]
    exact ⟨Expr.resolve_scoped h.1, hr.1, Stmt.resolve_scoped hr.2 h.2⟩
  | vs, levels, .branch c t (some e), hr, h => by
    rw [Stmt.visits, List.append_subset, List.append_subset,
      Stmt.afterLevels_eq levels hr.1.1 hr.1.2] at h
    rw [Stmt.resolve, ← Stmt.scopes_afterLevels, Stmt.afterLevels_eq levels hr.1.1 hr.1.2,
      Stmt.Scoped, Stmt.declares_resolve, Stmt.declares_resolve]
    exact ⟨⟨Expr.resolve_scoped h.1.1, hr.1.1, Stmt.resolve_scoped hr.1.2 h.1.2⟩, hr.2.1,
      Stmt.resolve_scoped hr.2.2 h.2⟩
  | vs, levels, .loop c body, hr, h => by
    rw [Stmt.visits, List.append_subset] at h
    rw [Stmt.resolve, Stmt.Scoped, Stmt.declares_resolve]
    exact ⟨Expr.resolve_scoped h.1, hr.1, Stmt.resolve_scoped hr.2 h.2⟩
  | vs, levels, .function id name params body, hr, h => by
    have hall := Stmt.resolveAll_scoped hr h
    rw [Levels.scopes_call, Levels.scopes_introduce] at hall
    rw [Stmt.resolve, Stmt.Scoped]
    exact hall
  | vs, levels, .ret _ value, _, h => by
    rw [Stmt.resolve, Stmt.Scoped]
    exact Expr.resolve_scoped_option h

/-- The same of statements one after another. -/
theorem Stmt.resolveAll_scoped : ∀ {vs : List Visit} {levels : Levels} {ss : List Stmt},
    Stmt.RegularAll ss → Stmt.visitsAll levels ss ⊆ vs →
    Stmt.ScopedAll vs levels (Stmt.resolveAll levels.scopes ss)
  | _, _, [], _, _ => trivial
  | vs, levels, s :: ss, hr, h => by
    rw [Stmt.visitsAll, List.append_subset] at h
    rw [Stmt.resolveAll, Stmt.ScopedAll, Stmt.afterLevels_resolve, ← Stmt.scopes_afterLevels]
    exact ⟨Stmt.resolve_scoped hr.1 h.1, Stmt.resolveAll_scoped hr.2 h.2⟩

end

/-! ## Settled scopes -/

/-- Every name of the scope is ready. -/
def Scope.Settled (scope : Scope) : Prop := ∀ name, scope.ready? name ≠ some false

/-- Every name of every level is ready. -/
def Levels.Settled (levels : Levels) : Prop := ∀ level ∈ levels, level.scope.Settled

/-- In settled scopes no name is pending. -/
theorem Scopes.isPending_of_settled {scopes : Scopes} (h : ∀ scope ∈ scopes, scope.Settled)
    (name : String) : scopes.isPending name = false := by
  cases scopes with
  | nil => rfl
  | cons scope outer => simpa [isPending] using h scope List.mem_cons_self name

theorem Scope.settled_nil : Scope.Settled [] := by
  intro name
  simp [ready?]

theorem Scope.ready?_declare_of_ne {name other : String} (h : other ≠ name) (scope : Scope) :
    (scope.declare name).ready? other = scope.ready? other := by
  unfold declare
  split
  · rfl
  · exact ready?_mark_of_ne h false scope

/-- Declaring a name makes no name ready. -/
theorem Scope.ready_of_declare {scope : Scope} {name other : String}
    (h : (scope.declare name).ready? other = some true) : scope.ready? other = some true := by
  by_cases ho : other = name
  · subst ho
    unfold declare at h
    split at h
    · exact h
    · simp at h
  · rwa [ready?_declare_of_ne ho] at h

/-- Making a name ready makes no other name ready. -/
theorem Scope.ready_of_define {scope : Scope} {name other : String}
    (h : (scope.define name).ready? other = some true) :
    other = name ∨ scope.ready? other = some true := by
  by_cases ho : other = name
  · exact Or.inl ho
  · right
    rwa [define, ready?_mark_of_ne ho] at h

theorem Scope.Settled.introduce {scope : Scope} (h : scope.Settled) (name : String) :
    ((scope.declare name).define name).Settled := by
  intro other
  by_cases ho : other = name
  · subst ho
    simp [define]
  · rw [define, ready?_mark_of_ne ho, ready?_declare_of_ne ho]
    exact h other

namespace Levels

theorem Settled.introduce (h : levels.Settled) (name : String) :
    (levels.introduce name).Settled := by
  cases levels with
  | nil => exact h
  | cons level outer =>
    intro l hl
    rcases List.mem_cons.mp hl with rfl | hl
    · exact (h level List.mem_cons_self).introduce name
    · exact h l (List.mem_cons_of_mem _ hl)

theorem Settled.enter (h : levels.Settled) (opener : Opener) :
    (levels.enter opener).Settled := by
  intro l hl
  rcases List.mem_cons.mp hl with rfl | hl
  · exact Scope.settled_nil
  · exact h l hl

theorem Settled.call (h : levels.Settled) (d : Declaration) :
    (levels.call d).Settled := by
  have key : ∀ (params : List Token) (levels : Levels), levels.Settled →
      Settled (params.foldl (fun levels param => levels.introduce param.lexeme) levels) := by
    intro params
    induction params with
    | nil => intro levels h; exact h
    | cons param params ih => intro levels h; exact ih _ (h.introduce param.lexeme)
  exact key d.params _ (h.enter (.function d))

theorem Settled.declare_tail (h : levels.Settled) (name : String) :
    Settled (levels.declare name).tail := by
  cases levels with
  | nil => exact h
  | cons level outer => exact fun l hl => h l (List.mem_cons_of_mem _ hl)

theorem Settled.tail (h : levels.Settled) : Settled levels.tail :=
  fun l hl => h l (List.mem_of_mem_tail hl)

end Levels

theorem Stmt.afterLevels_settled : ∀ {levels : Levels} (s : Stmt), levels.Settled →
    (s.afterLevels levels).Settled
  | _, .var name _, h | _, .function _ name _ _, h => h.introduce name.lexeme
  | _, .branch _ t none, h => Stmt.afterLevels_settled t h
  | _, .branch _ t (some e), h => Stmt.afterLevels_settled e (Stmt.afterLevels_settled t h)
  | _, .loop _ body, h => Stmt.afterLevels_settled body h
  | _, .expression _, h | _, .print _, h | _, .block _, h
  | _, .ret _ _, h => h

/-! ## Sound visits -/

/--
What a visit in a program without faults guarantees: the depth is that of the innermost scope that
has the name, and a name that is read is ready there.
-/
structure Visit.Sound (v : Visit) : Prop where
  depth : v.reference.depth = v.levels.scopes.depth? v.reference.name.lexeme
  ready : v.access = .read → ∀ d, v.reference.depth = some d →
    ∃ level, v.levels[d]? = some level ∧ level.scope.ready? v.reference.name.lexeme = some true

/-- The depth of a sound visit lies within its levels. -/
theorem Visit.Sound.depth_lt {v : Visit} (h : v.Sound) {d : Nat}
    (hd : v.reference.depth = some d) : d < v.levels.length := by
  rw [h.depth] at hd
  obtain ⟨hlt, -⟩ := List.findIdx?_eq_some_iff_getElem.mp hd
  simpa [Levels.scopes] using hlt

mutual

/-- The depth of a resolved reference is what the scopes give. -/
theorem Expr.depth_resolve : ∀ (scopes : Scopes) (e : Expr), ∀ r ∈ (e.resolve scopes).references,
    r.2.depth = scopes.depth? r.2.name.lexeme
  | scopes, .literal _ _ => by simp [Expr.resolve, Expr.references]
  | scopes, .read target => by simp [Expr.resolve, Expr.references, Reference.resolve]
  | scopes, .assign target value => by
    intro r hr
    rw [Expr.resolve, Expr.references, List.mem_append, List.mem_singleton] at hr
    rcases hr with hr | rfl
    · exact Expr.depth_resolve scopes value r hr
    · rfl
  | scopes, .unary _ _ right => Expr.depth_resolve scopes right
  | scopes, .binary _ left _ right | scopes, .logical _ left _ right => by
    intro r hr
    rw [Expr.resolve, Expr.references, List.mem_append] at hr
    rcases hr with hr | hr
    · exact Expr.depth_resolve scopes left r hr
    · exact Expr.depth_resolve scopes right r hr
  | scopes, .group _ inner => Expr.depth_resolve scopes inner
  | scopes, .call _ callee arguments _ => by
    intro r hr
    rw [Expr.resolve, Expr.references, List.mem_append] at hr
    rcases hr with hr | hr
    · exact Expr.depth_resolve scopes callee r hr
    · exact Expr.depth_resolveAll scopes arguments r hr

/-- The same of a list of expressions. -/
theorem Expr.depth_resolveAll : ∀ (scopes : Scopes) (es : List Expr),
    ∀ r ∈ Expr.referencesAll (Expr.resolveAll scopes es), r.2.depth = scopes.depth? r.2.name.lexeme
  | scopes, [] => by simp [Expr.resolveAll, Expr.referencesAll]
  | scopes, e :: es => by
    intro r hr
    rw [Expr.resolveAll, Expr.referencesAll, List.mem_append] at hr
    rcases hr with hr | hr
    · exact Expr.depth_resolve scopes e r hr
    · exact Expr.depth_resolveAll scopes es r hr

end

mutual

/-- An expression without faults reads no variable that is pending. -/
theorem Expr.not_pending : ∀ (scopes : Scopes) (e : Expr), e.scopeErrors scopes = [] →
    ∀ r, (Access.read, r) ∈ (e.resolve scopes).references → scopes.isPending r.name.lexeme = false
  | scopes, .literal _ _, _, r, hr => by simp [Expr.resolve, Expr.references] at hr
  | scopes, .read target, h, r, hr => by
    simp only [Expr.resolve, Expr.references, List.mem_singleton, Prod.mk.injEq, true_and] at hr
    subst hr
    simpa [Expr.scopeErrors, Reference.resolve] using h
  | scopes, .assign target value, h, r, hr => by
    simp only [Expr.resolve, Expr.references, List.mem_append, List.mem_singleton, Prod.mk.injEq,
      reduceCtorEq, false_and, or_false] at hr
    exact Expr.not_pending scopes value h r hr
  | scopes, .unary _ _ right, h, r, hr => Expr.not_pending scopes right h r hr
  | scopes, .binary _ left _ right, h, r, hr | scopes, .logical _ left _ right, h, r, hr => by
    rw [Expr.scopeErrors, List.append_eq_nil_iff] at h
    rw [Expr.resolve, Expr.references, List.mem_append] at hr
    rcases hr with hr | hr
    · exact Expr.not_pending scopes left h.1 r hr
    · exact Expr.not_pending scopes right h.2 r hr
  | scopes, .group _ inner, h, r, hr => Expr.not_pending scopes inner h r hr
  | scopes, .call _ callee arguments _, h, r, hr => by
    rw [Expr.scopeErrors, List.append_eq_nil_iff] at h
    rw [Expr.resolve, Expr.references, List.mem_append] at hr
    rcases hr with hr | hr
    · exact Expr.not_pending scopes callee h.1 r hr
    · exact Expr.not_pendingAll scopes arguments h.2 r hr

/-- The same of a list of expressions. -/
theorem Expr.not_pendingAll : ∀ (scopes : Scopes) (es : List Expr),
    Expr.scopeErrorsAll scopes es = [] →
    ∀ r, (Access.read, r) ∈ Expr.referencesAll (Expr.resolveAll scopes es) →
      scopes.isPending r.name.lexeme = false
  | scopes, [], _, r, hr => by simp [Expr.resolveAll, Expr.referencesAll] at hr
  | scopes, e :: es, h, r, hr => by
    rw [Expr.scopeErrorsAll, List.append_eq_nil_iff] at h
    rw [Expr.resolveAll, Expr.referencesAll, List.mem_append] at hr
    rcases hr with hr | hr
    · exact Expr.not_pending scopes e h.1 r hr
    · exact Expr.not_pendingAll scopes es h.2 r hr

end

/-- A name that is found, and is not pending in the innermost scope, is ready where it is found. -/
theorem Levels.ready_of_depth? {name : String} {d : Nat} (hs : Levels.Settled levels.tail)
    (hp : levels.scopes.isPending name = false) (hd : levels.scopes.depth? name = some d) :
    ∃ level, levels[d]? = some level ∧ level.scope.ready? name = some true := by
  obtain ⟨hlt, hhas, -⟩ := List.findIdx?_eq_some_iff_getElem.mp hd
  rw [Levels.scopes, List.length_map] at hlt
  simp only [Levels.scopes, List.getElem_map, Scope.has] at hhas
  refine ⟨levels[d], List.getElem?_eq_getElem hlt, ?_⟩
  obtain ⟨mark, hmark⟩ := Option.isSome_iff_exists.mp hhas
  have hne : levels[d].scope.ready? name ≠ some false := by
    cases levels with
    | nil => simp at hlt
    | cons level outer =>
      cases d with
      | zero => simpa [Levels.scopes, Scopes.isPending] using hp
      | succ d => exact hs _ (List.getElem_mem _) name
  cases mark with
  | false => exact absurd hmark hne
  | true => exact hmark

theorem Expr.visits_sound {e : Expr} (hs : Levels.Settled levels.tail)
    (h : e.scopeErrors levels.scopes = []) : ∀ v ∈ e.visits levels, v.Sound := by
  intro v hv
  obtain ⟨r, hr, rfl⟩ := List.mem_map.mp hv
  have hdepth := Expr.depth_resolve levels.scopes e r hr
  refine ⟨hdepth, ?_⟩
  intro ha d hd
  obtain ⟨access, r⟩ := r
  cases ha
  rw [hdepth] at hd
  exact Levels.ready_of_depth? hs (Expr.not_pending levels.scopes e h r hr) hd

theorem Expr.visitsOption_sound {e : Option Expr} (hs : Levels.Settled levels.tail)
    (h : Expr.scopeErrorsOption levels.scopes e = []) :
    ∀ v ∈ Expr.visitsOption levels e, v.Sound := by
  cases e with
  | none => simp [Expr.visitsOption]
  | some e => exact Expr.visits_sound hs h

mutual

/-- **In a statement without faults every visit is sound.** -/
theorem Stmt.visits_sound : ∀ {inFunction : Bool} {levels : Levels} {s : Stmt}, levels.Settled →
    s.scopeErrors inFunction levels.scopes = [] → ∀ v ∈ s.visits levels, v.Sound
  | _, levels, .expression e, hs, h | _, levels, .print e, hs, h => Expr.visits_sound hs.tail h
  | _, levels, .var name init, hs, h => by
    rw [Stmt.scopeErrors, List.append_eq_nil_iff, ← Levels.scopes_declare] at h
    exact Expr.visitsOption_sound (hs.declare_tail name.lexeme) h.2
  | _, levels, .block body, hs, h => Stmt.visitsAll_sound (hs.enter _) h
  | _, levels, .branch c t none, hs, h => by
    rw [Stmt.scopeErrors, List.append_eq_nil_iff] at h
    intro v hv
    rcases List.mem_append.mp hv with hv | hv
    · exact Expr.visits_sound hs.tail h.1 v hv
    · exact Stmt.visits_sound hs h.2 v hv
  | _, levels, .branch c t (some e), hs, h => by
    rw [Stmt.scopeErrors, List.append_eq_nil_iff, List.append_eq_nil_iff,
      ← Stmt.scopes_afterLevels] at h
    intro v hv
    rcases List.mem_append.mp hv with hv | hv
    · rcases List.mem_append.mp hv with hv | hv
      · exact Expr.visits_sound hs.tail h.1.1 v hv
      · exact Stmt.visits_sound hs h.1.2 v hv
    · exact Stmt.visits_sound (Stmt.afterLevels_settled t hs) h.2 v hv
  | _, levels, .loop c body, hs, h => by
    rw [Stmt.scopeErrors, List.append_eq_nil_iff] at h
    intro v hv
    rcases List.mem_append.mp hv with hv | hv
    · exact Expr.visits_sound hs.tail h.1 v hv
    · exact Stmt.visits_sound hs h.2 v hv
  | _, levels, .function id name params body, hs, h => by
    rw [Stmt.scopeErrors, List.append_eq_nil_iff] at h
    refine @Stmt.visitsAll_sound true _ _ ((hs.introduce name.lexeme).call _) ?_
    rw [Levels.scopes_call, Levels.scopes_introduce]
    exact h.2
  | _, levels, .ret _ value, hs, h => by
    rw [Stmt.scopeErrors, List.append_eq_nil_iff] at h
    exact Expr.visitsOption_sound hs.tail h.2

/-- The same of statements one after another. -/
theorem Stmt.visitsAll_sound : ∀ {inFunction : Bool} {levels : Levels} {ss : List Stmt},
    levels.Settled → Stmt.scopeErrorsAll inFunction levels.scopes ss = [] →
    ∀ v ∈ Stmt.visitsAll levels ss, v.Sound
  | _, _, [], _, _ => by simp [Stmt.visitsAll]
  | _, levels, s :: ss, hs, h => by
    rw [Stmt.scopeErrorsAll, List.append_eq_nil_iff, ← Stmt.scopes_afterLevels] at h
    intro v hv
    rcases List.mem_append.mp hv with hv | hv
    · exact Stmt.visits_sound hs h.1 v hv
    · exact Stmt.visitsAll_sound (Stmt.afterLevels_settled s hs) h.2 v hv

end

/-- **In a program without faults every visit is sound.** -/
theorem visits_sound {program : List Stmt} (h : scopeErrors program = []) :
    ∀ v ∈ visits program, v.Sound :=
  Stmt.visitsAll_sound (fun _ hl => absurd hl List.not_mem_nil) h

end Nya
