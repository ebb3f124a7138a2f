import Mathlib.Data.List.Forall2
import Nya.Proofs.Scope.AlphaResolve
import Nya.Proofs.Scope.Events
import Nya.Proofs.Scope.Scoped

/-!
# Resolution is exact

Resolution keeps a stack of scopes with marked names. The stack *tracks* the history: its scopes are
the open ones, each has the names that have been declared in it, and a name of the innermost scope
is not ready just while it is being initialized.

Every event of a statement keeps this, so what resolution reads off its stack is what the rules say
of the history.

* `Scopes.Tracks`, and a lemma for each event
* `Stmt.scopeErrors_eq_faults`, `Stmt.events_resolve` for statements
* `resolution_exact` for programs
-/

namespace Nya

/-! ## Tracking a history -/

/-- The scopes have the names of the open scopes of a history, and the same name is not ready. -/
structure Scopes.Tracks (scopes : Scopes) (h : History) : Prop where
  names : List.Forall₂ (fun scope opening => ∀ name, scope.has name = h.declares opening name)
    scopes h.scopes
  pending : ∀ name, scopes.isPending name = h.initializes name

/-- The scopes track a history, and every name is ready. -/
structure Scopes.Steady (scopes : Scopes) (h : History) : Prop extends scopes.Tracks h where
  settled : ∀ scope ∈ scopes, scope.Settled

namespace Scopes

namespace Tracks

variable {scopes : Scopes} {h : History}

/-- A name is in the innermost scope just if the history declares it there. -/
theorem hasInner (ht : scopes.Tracks h) (name : String) :
    scopes.hasInner name = h.declaresInner name := by
  have hnames := ht.names
  rw [History.declaresInner]
  cases hs : h.scopes with
  | nil =>
    rw [hs, List.forall₂_nil_right_iff] at hnames
    rw [hnames]
    rfl
  | cons opening openings =>
    rw [hs, List.forall₂_cons_right_iff] at hnames
    obtain ⟨scope, outer, hscope, -, rfl⟩ := hnames
    exact hscope name

/-- The scope that resolution finds is the one that the rules name. -/
theorem depth? (ht : scopes.Tracks h) (name : String) :
    scopes.depth? name = h.distance? name := by
  have hnames := ht.names
  rw [Scopes.depth?, History.distance?]
  clear ht
  generalize h.scopes = openings at hnames
  induction hnames with
  | nil => rfl
  | cons hscope _ ih => rw [List.findIdx?_cons, List.findIdx?_cons, hscope name, ih]

/-! ### Events -/

/-- A reference declares nothing. -/
theorem refer (ht : scopes.Tracks h) (access : Access) (target : Reference) :
    scopes.Tracks (.refer access target :: h) :=
  ⟨ht.names, ht.pending⟩

/-- Nor do all the references of an expression. -/
theorem references (ht : scopes.Tracks h) (e : Expr) : scopes.Tracks (h.after e.events) := by
  rw [Expr.events]
  induction e.references generalizing h with
  | nil => exact ht
  | cons r refs ih =>
    rw [List.map_cons, History.after_cons]
    exact ih (ht.refer r.1 r.2)

theorem referencesOption (ht : scopes.Tracks h) (e : Option Expr) :
    scopes.Tracks (h.after (Expr.eventsOption e)) := by
  cases e with
  | none => exact ht
  | some e => exact ht.references e

end Tracks

namespace Steady

variable {scopes : Scopes} {h : History}

theorem references (ht : scopes.Steady h) (e : Expr) : scopes.Steady (h.after e.events) :=
  ⟨ht.toTracks.references e, ht.settled⟩

theorem referencesOption (ht : scopes.Steady h) (e : Option Expr) :
    scopes.Steady (h.after (Expr.eventsOption e)) :=
  ⟨ht.toTracks.referencesOption e, ht.settled⟩

theorem ret (ht : scopes.Steady h) (keyword : Token) : scopes.Steady (.ret keyword :: h) :=
  ⟨⟨ht.names, isPending_of_settled ht.settled⟩, ht.settled⟩

/-- A scope that was just opened has no names: those of the history belong to earlier scopes. -/
theorem enter (ht : scopes.Steady h) (isFunction : Bool) :
    Steady ([] :: scopes) (.enter isFunction :: h) := by
  refine ⟨⟨?_, fun _ => rfl⟩, ?_⟩
  · refine .cons ?_ ht.names
    intro name
    have hnone : h.declares ⟨h.length, isFunction⟩ name = false :=
      History.declares_of_length_le (Nat.le_refl _) name
    exact hnone.symm
  · intro scope hscope
    rcases List.mem_cons.mp hscope with rfl | hscope
    · exact Scope.settled_nil
    · exact ht.settled scope hscope

/-- The scope that is left takes its names along. -/
theorem leave {scope : Scope} (ht : Steady (scope :: scopes) h) : scopes.Steady (.leave :: h) := by
  have hsettled : ∀ s ∈ scopes, Scope.Settled s :=
    fun s hs => ht.settled s (List.mem_cons_of_mem _ hs)
  refine ⟨⟨?_, isPending_of_settled hsettled⟩, hsettled⟩
  obtain ⟨opening, openings, -, hnames, hopenings⟩ := List.forall₂_cons_left_iff.mp ht.names
  rw [History.scopes, hopenings]
  exact hnames

/-- A name is declared in the innermost scope and in no other one. -/
theorem declare (ht : scopes.Steady h) (name : Token) :
    (scopes.declare name.lexeme).Tracks (.declare name :: h) := by
  have hnames := ht.names
  have hinner := ht.hasInner
  cases scopes with
  | nil =>
    rw [List.forall₂_nil_left_iff] at hnames
    refine ⟨?_, ?_⟩
    · rw [History.scopes_declare, hnames]
      exact .nil
    · intro other
      simp [Scopes.declare, updateInner, isPending, History.initializes, hnames]
  | cons scope outer =>
    obtain ⟨opening, openings, hscope, houter, hopenings⟩ := List.forall₂_cons_left_iff.mp hnames
    have hdeclares : ∀ o other, History.declares o other (.declare name :: h) =
        (name.lexeme == other && opening == o || h.declares o other) := by
      intro o other
      simp [History.declares, hopenings]
    refine ⟨?_, ?_⟩
    · rw [History.scopes_declare, hopenings]
      refine .cons ?_ ?_
      · intro other
        rw [Scope.has_declare, hscope, hdeclares, Bool.or_comm, BEq.rfl, Bool.and_true,
          Bool.beq_comm]
      · rw [List.forall₂_iff_zip] at houter ⊢
        refine ⟨houter.1, ?_⟩
        intro scope' opening' hmem other
        have hnodup := h.scopes_nodup
        rw [hopenings, List.nodup_cons] at hnodup
        have hne : opening ≠ opening' := by
          rintro rfl
          exact hnodup.1 (List.of_mem_zip hmem).2
        simp [hdeclares, hne, houter.2 hmem other]
    · intro other
      have hother : scope.has other = h.declaresInner other := hinner other
      have hready := ht.settled scope List.mem_cons_self other
      simp only [Scopes.declare, updateInner, isPending, History.initializes, hopenings,
        List.isEmpty_cons, Bool.not_false, Bool.and_true, ← hother]
      by_cases ho : other = name.lexeme
      · subst ho
        unfold Scope.declare
        split
        · next hhas => simp [hhas, hready]
        · next hhas => simp [hhas]
      · rw [Scope.ready?_declare_of_ne ho, beq_eq_false_iff_ne.mpr hready,
          beq_eq_false_iff_ne.mpr (Ne.symm ho), Bool.false_and]

/-- A declaration that is complete leaves every name ready. -/
theorem complete (ht : scopes.Steady h) {h' : History} {name : Token}
    (hinit : (scopes.declare name.lexeme).Tracks h') :
    (scopes.introduce name.lexeme).Steady (.complete name :: h') := by
  have hnames := hinit.names
  have hsettled := ht.settled
  cases scopes with
  | nil => exact ⟨⟨hnames, fun _ => rfl⟩, hsettled⟩
  | cons scope outer =>
    have hsettled' : ∀ s ∈ introduce (scope :: outer) name.lexeme, Scope.Settled s := by
      intro s hs
      rcases List.mem_cons.mp hs with rfl | hs
      · exact (hsettled scope List.mem_cons_self).introduce name.lexeme
      · exact hsettled s (List.mem_cons_of_mem _ hs)
    refine ⟨⟨?_, isPending_of_settled hsettled'⟩, hsettled'⟩
    obtain ⟨opening, openings, hscope, houter, hopenings⟩ := List.forall₂_cons_left_iff.mp hnames
    rw [History.scopes_complete, hopenings]
    refine .cons ?_ houter
    intro other
    rw [Scope.has_define, Scope.has_declare, Bool.or_assoc, Bool.or_self, ← Scope.has_declare]
    exact hscope other

/-- A name that is declared and initialized at once is ready. -/
theorem introduce (ht : scopes.Steady h) (name : Token) :
    (scopes.introduce name.lexeme).Steady (h.after name.events) :=
  ht.complete (ht.declare name)

/-- The parameters of a function are introduced one by one. -/
theorem introduceAll (params : List Token) : ∀ {scopes : Scopes} {h : History},
    scopes.Steady h →
    Steady (params.foldl (fun (scopes : Scopes) param => scopes.introduce param.lexeme) scopes)
      (h.after (params.flatMap Token.events)) := by
  induction params with
  | nil => exact fun ht => ht
  | cons param params ih =>
    intro scopes h ht
    rw [List.foldl_cons, List.flatMap_cons, History.after_append]
    exact ih (ht.introduce param)

end Steady

/-- Only the innermost scope changes. -/
theorem introduce_cons (scope : Scope) (outer : Scopes) (name : String) :
    introduce (scope :: outer) name = (scope.declare name).define name :: outer := rfl

/-- Parameters change no scope but the innermost. -/
theorem foldl_introduce_cons (params : List Token) (outer : Scopes) : ∀ scope : Scope,
    ∃ scope' : Scope,
      params.foldl (fun (scopes : Scopes) param => scopes.introduce param.lexeme) (scope :: outer) =
        scope' :: outer := by
  induction params with
  | nil => exact fun scope => ⟨scope, rfl⟩
  | cons param params ih =>
    intro scope
    rw [List.foldl_cons, introduce_cons]
    exact ih _

end Scopes

/-! ## Statements -/

/-- A statement changes the innermost scope only. -/
theorem Stmt.after_cons : ∀ (s : Stmt) (scope : Scope) (outer : Scopes),
    ∃ scope', s.after (scope :: outer) = scope' :: outer
  | .var _ _, _, _ | .function _ _ _ _, _, _ => ⟨_, rfl⟩
  | .branch _ t none, scope, outer => t.after_cons scope outer
  | .branch _ t (some e), scope, outer => by
    obtain ⟨scope₁, h₁⟩ := t.after_cons scope outer
    rw [Stmt.after, h₁]
    exact e.after_cons scope₁ outer
  | .loop _ body, scope, outer => body.after_cons scope outer
  | .expression _, scope, _ | .print _, scope, _ | .block _, scope, _ | .ret _ _, scope, _ =>
    ⟨scope, rfl⟩

/-- Statements that follow each other change no scope but the innermost. -/
theorem Stmt.foldl_after_cons (ss : List Stmt) (outer : Scopes) : ∀ scope : Scope,
    ∃ scope', ss.foldl Stmt.after (scope :: outer) = scope' :: outer := by
  induction ss with
  | nil => exact fun scope => ⟨scope, rfl⟩
  | cons s ss ih =>
    intro scope
    obtain ⟨scope₁, h₁⟩ := s.after_cons scope outer
    rw [List.foldl_cons, h₁]
    exact ih scope₁

mutual

/-- **The stack of scopes keeps track of the history over a statement.** -/
theorem Stmt.steady_after : ∀ (s : Stmt) {scopes : Scopes} {h : History}, scopes.Steady h →
    (s.after scopes).Steady (h.after s.events)
  | .expression e, _, _, ht | .print e, _, _, ht => ht.references e
  | .var name init, scopes, h, ht => by
    rw [Stmt.events, History.after_cons, History.after_append]
    exact ht.complete ((ht.declare name).referencesOption init)
  | .block body, scopes, h, ht => by
    have hbody := Stmt.steady_afterAll body (ht.enter false)
    obtain ⟨scope, hscope⟩ := Stmt.foldl_after_cons body scopes []
    rw [hscope] at hbody
    rw [Stmt.events, History.after_cons, History.after_append]
    exact hbody.leave
  | .branch c t none, scopes, h, ht => by
    rw [Stmt.events, History.after_append]
    exact t.steady_after (ht.references c)
  | .branch c t (some e), scopes, h, ht => by
    rw [Stmt.events, History.after_append, History.after_append]
    exact e.steady_after (t.steady_after (ht.references c))
  | .loop c body, scopes, h, ht => by
    rw [Stmt.events, History.after_append]
    exact body.steady_after (ht.references c)
  | .function _ name params body, scopes, h, ht => by
    have hparams := ((ht.introduce name).enter true).introduceAll params
    have hbody := Stmt.steady_afterAll body hparams
    obtain ⟨scope, hscope⟩ :=
      Scopes.foldl_introduce_cons params (scopes.introduce name.lexeme) []
    rw [hscope] at hbody
    obtain ⟨scope', hscope'⟩ := Stmt.foldl_after_cons body (scopes.introduce name.lexeme) scope
    rw [hscope'] at hbody
    rw [Stmt.events, History.after_append, History.after_cons, History.after_append,
      History.after_append]
    exact hbody.leave
  | .ret keyword value, scopes, h, ht => by
    rw [Stmt.events, History.after_cons]
    exact (ht.ret keyword).referencesOption value

/-- Statements that follow each other leave every name ready. -/
theorem Stmt.steady_afterAll : ∀ (ss : List Stmt) {scopes : Scopes} {h : History},
    scopes.Steady h → Scopes.Steady (ss.foldl Stmt.after scopes) (h.after (Stmt.eventsAll ss))
  | [], _, _, ht => ht
  | s :: ss, scopes, h, ht => by
    rw [List.foldl_cons, Stmt.eventsAll, History.after_append]
    exact Stmt.steady_afterAll ss (s.steady_after ht)

end

/-! ## The open scopes after a statement -/

/-- An expression opens no scope. -/
theorem History.scopes_after_events (h : History) (e : Expr) :
    (h.after e.events).scopes = h.scopes := by
  rw [Expr.events]
  induction e.references generalizing h with
  | nil => rfl
  | cons r refs ih => rw [List.map_cons, after_cons, ih, scopes_refer]

theorem History.scopes_after_eventsOption (h : History) (e : Option Expr) :
    (h.after (Expr.eventsOption e)).scopes = h.scopes := by
  cases e with
  | none => rfl
  | some e => exact h.scopes_after_events e

theorem History.scopes_after_params (params : List Token) : ∀ h : History,
    (h.after (params.flatMap Token.events)).scopes = h.scopes := by
  induction params with
  | nil => exact fun _ => rfl
  | cons param params ih =>
    intro h
    rw [List.flatMap_cons, after_append, ih]
    rfl

mutual

/-- Every scope that a statement opens is left again. -/
theorem Stmt.scopes_after : ∀ (s : Stmt) (h : History), (h.after s.events).scopes = h.scopes
  | .expression e, h | .print e, h => h.scopes_after_events e
  | .var name init, h => by
    rw [Stmt.events, History.after_cons, History.after_append]
    exact History.scopes_after_eventsOption _ init
  | .block body, h => by
    rw [Stmt.events, History.after_cons, History.after_append]
    exact congrArg List.tail (Stmt.scopes_afterAll body (.enter false :: h))
  | .branch c t none, h => by
    rw [Stmt.events, History.after_append, t.scopes_after, History.scopes_after_events]
  | .branch c t (some e), h => by
    rw [Stmt.events, History.after_append, History.after_append, e.scopes_after, t.scopes_after,
      History.scopes_after_events]
  | .loop c body, h => by
    rw [Stmt.events, History.after_append, body.scopes_after, History.scopes_after_events]
  | .function _ name params body, h => by
    rw [Stmt.events, History.after_append, History.after_cons, History.after_append,
      History.after_append]
    refine (congrArg List.tail (Stmt.scopes_afterAll body _)).trans ?_
    rw [History.scopes_after_params]
    rfl
  | .ret keyword value, h => by
    rw [Stmt.events, History.after_cons]
    exact History.scopes_after_eventsOption _ value

/-- Statements leave all the scopes that they enter. -/
theorem Stmt.scopes_afterAll : ∀ (ss : List Stmt) (h : History),
    (h.after (Stmt.eventsAll ss)).scopes = h.scopes
  | [], _ => rfl
  | s :: ss, h => by
    rw [Stmt.eventsAll, History.after_append, Stmt.scopes_afterAll ss, s.scopes_after]

end

/-- Whether a place is in a function is told by its open scopes. -/
theorem History.inFunction_after {h h' : History} (hs : h'.scopes = h.scopes) :
    h'.inFunction = h.inFunction := by
  rw [inFunction, hs, inFunction]

/-! ## Faults -/

/-- A reference is in error on its own: those before it do not matter. -/
theorem History.faults_references (refs : List (Access × Reference)) : ∀ h : History,
    h.faults (refs.map fun r => .refer r.1 r.2) =
      refs.flatMap fun r => (h.fault? (.refer r.1 r.2)).toList := by
  induction refs with
  | nil => exact fun _ => rfl
  | cons r refs ih =>
    intro h
    rw [List.map_cons, faults, ih, List.flatMap_cons]
    -- an event that is a reference does not matter for the references after it
    rfl

section

variable {scopes : Scopes} {h : History}

mutual

/-- The errors of an expression are those of its references, in order. -/
theorem Expr.scopeErrors_eq_flatMap (ht : scopes.Tracks h) : ∀ e : Expr,
    e.scopeErrors scopes = e.references.flatMap fun r => (h.fault? (.refer r.1 r.2)).toList
  | .literal _ _ => rfl
  | .read target => by
    simp only [Expr.scopeErrors, Expr.references, ht.pending, History.fault?, List.flatMap_cons,
      List.flatMap_nil, List.append_nil]
    split <;> rfl
  | .assign target e => by
    simp [Expr.scopeErrors, Expr.references, Expr.scopeErrors_eq_flatMap ht e, History.fault?]
  | .unary _ _ e | .group _ e => by
    simp [Expr.scopeErrors, Expr.references, Expr.scopeErrors_eq_flatMap ht e]
  | .binary _ l _ r | .logical _ l _ r => by
    simp [Expr.scopeErrors, Expr.references, Expr.scopeErrors_eq_flatMap ht l,
      Expr.scopeErrors_eq_flatMap ht r]
  | .call _ c es _ => by
    simp [Expr.scopeErrors, Expr.references, Expr.scopeErrors_eq_flatMap ht c,
      Expr.scopeErrorsAll_eq_flatMap ht es]

theorem Expr.scopeErrorsAll_eq_flatMap (ht : scopes.Tracks h) : ∀ es : List Expr,
    Expr.scopeErrorsAll scopes es =
      (Expr.referencesAll es).flatMap fun r => (h.fault? (.refer r.1 r.2)).toList
  | [] => rfl
  | e :: es => by
    simp [Expr.scopeErrorsAll, Expr.referencesAll, Expr.scopeErrors_eq_flatMap ht e,
      Expr.scopeErrorsAll_eq_flatMap ht es]

end

/-- The errors that are found in an expression are those that the rules give. -/
theorem Expr.scopeErrors_eq_faults (ht : scopes.Tracks h) (e : Expr) :
    e.scopeErrors scopes = h.faults e.events := by
  rw [Expr.scopeErrors_eq_flatMap ht, Expr.events, History.faults_references]

theorem Expr.scopeErrorsOption_eq_faults (ht : scopes.Tracks h) (e : Option Expr) :
    Expr.scopeErrorsOption scopes e = h.faults (Expr.eventsOption e) := by
  cases e with
  | none => rfl
  | some e => exact e.scopeErrors_eq_faults ht

/-- A second declaration in one scope is found just where the rules forbid it. -/
theorem Scopes.Tracks.declareErrors (ht : scopes.Tracks h) (name : Token) :
    scopes.declareErrors name = (h.fault? (.declare name)).toList := by
  rw [Scopes.declareErrors, ht.hasInner, History.fault?]
  split <;> rfl

end

/-- Of a declaration without an initial value only the name may be a fault. -/
theorem History.faults_name (h : History) (name : Token) :
    h.faults name.events = (h.fault? (.declare name)).toList := by
  simp [Token.events, faults, fault?]

/-- The errors among parameters are those that the rules give. -/
theorem parameterErrors_eq_faults (params : List Token) : ∀ {scopes : Scopes} {h : History},
    scopes.Steady h → parameterErrors scopes params = h.faults (params.flatMap Token.events) := by
  induction params with
  | nil => exact fun _ => rfl
  | cons param params ih =>
    intro scopes h ht
    rw [parameterErrors, List.flatMap_cons, History.faults_append, History.faults_name,
      ih (ht.introduce param), ht.declareErrors]

mutual

/-- **The faults of a statement are those of its events.** -/
theorem Stmt.scopeErrors_eq_faults : ∀ (s : Stmt) {scopes : Scopes} {h : History},
    scopes.Steady h → s.scopeErrors h.inFunction scopes = h.faults s.events
  | .expression e, _, _, ht | .print e, _, _, ht => e.scopeErrors_eq_faults ht.toTracks
  | .var name init, scopes, h, ht => by
    have hinit := Expr.scopeErrorsOption_eq_faults (ht.declare name) init
    simp [Stmt.scopeErrors, Stmt.events, History.faults, ht.declareErrors, hinit, History.fault?]
  | .block body, scopes, h, ht => by
    have hbody := Stmt.scopeErrorsAll_eq_faults body (ht.enter false)
    simpa [Stmt.scopeErrors, Stmt.events, History.faults, History.fault?, History.inFunction]
      using hbody
  | .branch c t none, scopes, h, ht => by
    have hfun := History.inFunction_after (h.scopes_after_events c)
    rw [Stmt.scopeErrors, Stmt.events, History.faults_append, c.scopeErrors_eq_faults ht.toTracks,
      ← hfun, t.scopeErrors_eq_faults (ht.references c)]
  | .branch c t (some e), scopes, h, ht => by
    have hfun := History.inFunction_after (h.scopes_after_events c)
    have hfun' := History.inFunction_after (t.scopes_after (h.after c.events))
    rw [Stmt.scopeErrors, Stmt.events, History.faults_append, History.faults_append,
      History.after_append, c.scopeErrors_eq_faults ht.toTracks, ← hfun,
      t.scopeErrors_eq_faults (ht.references c), ← hfun',
      e.scopeErrors_eq_faults (t.steady_after (ht.references c))]
  | .loop c body, scopes, h, ht => by
    have hfun := History.inFunction_after (h.scopes_after_events c)
    rw [Stmt.scopeErrors, Stmt.events, History.faults_append, c.scopeErrors_eq_faults ht.toTracks,
      ← hfun, body.scopeErrors_eq_faults (ht.references c)]
  | .function _ name params body, scopes, h, ht => by
    have henter := (ht.introduce name).enter true
    have hparams := parameterErrors_eq_faults params henter
    have hbody := Stmt.scopeErrorsAll_eq_faults body (henter.introduceAll params)
    have hfun : (History.after (.enter true :: h.after name.events)
        (params.flatMap Token.events)).inFunction = true := by
      rw [History.inFunction_after (History.scopes_after_params params _)]
      rfl
    rw [hfun] at hbody
    simp only [Stmt.scopeErrors, Stmt.events, History.faults_append, History.faults_name,
      History.faults, History.fault?, Option.toList_none, List.nil_append, List.append_nil,
      ht.declareErrors, hparams, List.append_assoc]
    rw [← hbody]
    rfl
  | .ret keyword value, scopes, h, ht => by
    have hvalue := Expr.scopeErrorsOption_eq_faults (ht.ret keyword).toTracks value
    rw [Stmt.scopeErrors, Stmt.events, History.faults, hvalue, History.fault?]
    split <;> rfl

/-- The errors in statements that follow each other are those that the rules give. -/
theorem Stmt.scopeErrorsAll_eq_faults : ∀ (ss : List Stmt) {scopes : Scopes} {h : History},
    scopes.Steady h → Stmt.scopeErrorsAll h.inFunction scopes ss = h.faults (Stmt.eventsAll ss)
  | [], _, _, _ => rfl
  | s :: ss, scopes, h, ht => by
    have hfun := History.inFunction_after (s.scopes_after h)
    rw [Stmt.scopeErrorsAll, Stmt.eventsAll, History.faults_append, s.scopeErrors_eq_faults ht,
      ← hfun, Stmt.scopeErrorsAll_eq_faults ss (s.steady_after ht)]

end

/-! ## Distances -/

/-- Each reference is located from where the expression stands. -/
theorem History.locateAll_references (refs : List (Access × Reference)) : ∀ h : History,
    h.locateAll (refs.map fun r => .refer r.1 r.2) =
      refs.map fun r => h.locate (.refer r.1 r.2) := by
  induction refs with
  | nil => exact fun _ => rfl
  | cons r refs ih =>
    intro h
    rw [List.map_cons, locateAll, ih, List.map_cons]
    rfl

/-- Parameters are no references, so there is nothing to locate. -/
theorem History.locateAll_params (params : List Token) : ∀ h : History,
    h.locateAll (params.flatMap Token.events) = params.flatMap Token.events := by
  induction params with
  | nil => exact fun _ => rfl
  | cons param params ih =>
    intro h
    rw [List.flatMap_cons, locateAll_append, ih]
    rfl

/-- A resolved expression has the depths that the rules give. -/
theorem Expr.events_resolve {scopes : Scopes} {h : History} (ht : scopes.Tracks h) (e : Expr) :
    (e.resolve scopes).events = h.locateAll e.events := by
  rw [Expr.events, Expr.resolve_eq_mapReferences, Expr.references_mapReferences, List.map_map,
    Expr.events, History.locateAll_references]
  refine List.map_congr_left ?_
  intro r _
  simp [Reference.resolve, History.locate, ht.depth?]

theorem Expr.eventsOption_resolve {scopes : Scopes} {h : History} (ht : scopes.Tracks h)
    (e : Option Expr) :
    Expr.eventsOption (e.map (Expr.resolve scopes)) = h.locateAll (Expr.eventsOption e) := by
  cases e with
  | none => rfl
  | some e => exact e.events_resolve ht

mutual

/-- **Resolution gives each reference of a statement the distance that the rules say.** -/
theorem Stmt.events_resolve : ∀ (s : Stmt) {scopes : Scopes} {h : History}, scopes.Steady h →
    (s.resolve scopes).events = h.locateAll s.events
  | .expression e, _, _, ht | .print e, _, _, ht => e.events_resolve ht.toTracks
  | .var name init, scopes, h, ht => by
    have hinit := Expr.eventsOption_resolve (ht.declare name) init
    simp [Stmt.resolve, Stmt.events, History.locateAll, History.locate, hinit]
  | .block body, scopes, h, ht => by
    have hbody := Stmt.events_resolveAll body (ht.enter false)
    simp [Stmt.resolve, Stmt.events, History.locateAll, History.locate, hbody]
  | .branch c t none, scopes, h, ht => by
    have hthen := t.events_resolve (ht.references c)
    simp [Stmt.resolve, Stmt.events, c.events_resolve ht.toTracks, hthen]
  | .branch c t (some e), scopes, h, ht => by
    have hthen := t.events_resolve (ht.references c)
    have helse := e.events_resolve (t.steady_after (ht.references c))
    simp [Stmt.resolve, Stmt.events, c.events_resolve ht.toTracks, hthen, helse]
  | .loop c body, scopes, h, ht => by
    have hbody := body.events_resolve (ht.references c)
    simp [Stmt.resolve, Stmt.events, c.events_resolve ht.toTracks, hbody]
  | .function _ name params body, scopes, h, ht => by
    have hparams := ((ht.introduce name).enter true).introduceAll params
    have hbody : Stmt.eventsAll
        (Stmt.resolveAll (parameterScope (scopes.introduce name.lexeme) params) body) = _ :=
      Stmt.events_resolveAll body hparams
    have hname : h.locateAll name.events = name.events := rfl
    simp [Stmt.resolve, Stmt.events, History.locateAll, History.locate, hbody, hname,
      History.locateAll_params]
  | .ret keyword value, scopes, h, ht => by
    have hvalue := Expr.eventsOption_resolve (ht.ret keyword).toTracks value
    simp [Stmt.resolve, Stmt.events, History.locateAll, History.locate, hvalue]

/-- So have statements that follow each other. -/
theorem Stmt.events_resolveAll : ∀ (ss : List Stmt) {scopes : Scopes} {h : History},
    scopes.Steady h →
    Stmt.eventsAll (Stmt.resolveAll scopes ss) = h.locateAll (Stmt.eventsAll ss)
  | [], _, _, _ => rfl
  | s :: ss, scopes, h, ht => by
    rw [Stmt.resolveAll, Stmt.eventsAll, Stmt.eventsAll, History.locateAll_append,
      s.events_resolve ht, Stmt.events_resolveAll ss (s.steady_after ht)]

end

/-! ## Programs -/

/-- An event is located in the history up to it. -/
theorem History.getElem?_locateAll (es : List Event) : ∀ (h : History) (i : Nat),
    (h.locateAll es)[i]? = es[i]?.map (History.locate (h.after (es.take i))) := by
  induction es with
  | nil => simp [locateAll]
  | cons e es ih =>
    intro h i
    cases i with
    | zero => simp [locateAll]
    | succ i => simp [locateAll, ih]

/-- Before the first statement there is no scope and no history. -/
theorem steady_nil : Scopes.Steady [] [] := ⟨⟨.nil, fun _ => rfl⟩, fun _ h => by cases h⟩

/--
**Resolution is exact.** The references of a resolved program are those of its events. Each is the
reference that the program has in that place, and it has the depth `d` if and only if the innermost
scope in which the name had been declared before it is `d` scopes out. What is reported is the fault
of each event that is one, in order, and nothing else.
-/
theorem resolution_exact (program : List Stmt) :
    Stmt.referencesAll (resolve program) =
      (events (resolve program)).filterMap Event.reference? ∧
    (∀ i access target, (events (resolve program))[i]? = some (.refer access target) ↔
      ∃ r, (events program)[i]? = some (.refer access r) ∧
        target = { r with depth := target.depth } ∧
        ∀ d, target.depth = some d ↔
          History.Binds ((events program).take i).reverse r.name.lexeme d) ∧
    scopeErrors program = History.faults [] (events program) := by
  have hresolve : events (resolve program) = History.locateAll [] (events program) :=
    Stmt.events_resolveAll program steady_nil
  refine ⟨(Stmt.references_eventsAll _).symm, ?_, Stmt.scopeErrorsAll_eq_faults program steady_nil⟩
  intro i access target
  rw [hresolve, History.getElem?_locateAll, History.after, List.append_nil]
  constructor
  · intro htarget
    obtain ⟨e, he, hlocate⟩ := Option.map_eq_some_iff.mp htarget
    cases e with
    | refer access' r =>
      cases hlocate
      exact ⟨r, he, rfl, fun d => History.distance?_eq_some_iff⟩
    | _ => cases hlocate
  · rintro ⟨r, he, htarget, hdepth⟩
    have hdistance : target.depth =
        History.distance? ((events program).take i).reverse r.name.lexeme := by
      apply Option.ext
      intro d
      exact (hdepth d).trans History.distance?_eq_some_iff.symm
    rw [he, Option.map_some, History.locate, ← hdistance, ← htarget]

end Nya
