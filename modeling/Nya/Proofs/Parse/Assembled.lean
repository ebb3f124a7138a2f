import Nya.Proofs.Parse.Closure
import Nya.Proofs.Parse.Outcome

/-!
# What parsers are made of

All parsers are sequences of a few small ones. `Assembled` says so, and which tokens are taken on
the way: an expression takes no semicolon.

From this alone it follows what a parser can do to its state. It takes tokens off the front and
adds faults at the end, and a fault without a token is one at the end of the input
(`Assembled.follows`). It never looks at the faults that were recorded before it
(`Assembled.recording`).
-/

namespace Nya.Parse

/--
The parser is put together from small ones, and takes only tokens that pass. A parser that skips
tokens after a fault may take any.
-/
inductive Assembled (takes : Token → Prop) : {α : Type} → Parser α → Prop
  | pure {α : Type} (v : α) : Assembled takes (pure v)
  | bind {α β : Type} {p : Parser β} {k : β → Parser α} (first : Assembled takes p)
    (second : ∀ v, Assembled takes (k v)) : Assembled takes (p >>= k)
  | outOfFuel {α : Type} : Assembled takes (outOfFuel : Parser α)
  | fail {α : Type} (cause : SyntaxCause) : Assembled takes (fail cause : Parser α)
  | report (t : Token) (cause : SyntaxCause) : Assembled takes (report ⟨some t, cause⟩)
  | reportHere (cause : SyntaxCause) : Assembled takes (reportHere cause)
  | newNode : Assembled takes newNode
  | newFunction : Assembled takes newFunction
  | peek? : Assembled takes peek?
  | nextIs (symbol : Symbol) : Assembled takes (nextIs symbol)
  | takeIf {test : Token → Bool} (h : ∀ t, test t = true → takes t) : Assembled takes (takeIf test)
  | recovering {α : Type} {p : Parser α} (h : ∀ t, takes t) (inner : Assembled takes p) :
    Assembled takes (recovering p)

variable {α : Type} {takes takes' : Token → Prop}

/-- A parser that takes only some tokens takes only tokens of a larger set. -/
theorem Assembled.mono {p : Parser α} (h : Assembled takes p) (himp : ∀ t, takes t → takes' t) :
    Assembled takes' p := by
  induction h with
  | pure v => exact .pure v
  | bind _ _ ih ih' => exact .bind ih ih'
  | outOfFuel => exact .outOfFuel
  | fail cause => exact .fail cause
  | report t cause => exact .report t cause
  | reportHere cause => exact .reportHere cause
  | newNode => exact .newNode
  | newFunction => exact .newFunction
  | peek? => exact .peek?
  | nextIs symbol => exact .nextIs symbol
  | takeIf h => exact .takeIf fun t ht => himp t (h t ht)
  | recovering h _ ih => exact .recovering (fun t => himp t (h t)) ih

/-! ## The way from one state to another -/

/--
On the way from the first state to the second one tokens that pass were taken, and faults were
added; one without a token only if the input has come to its end.
-/
structure State.Follows (takes : Token → Prop) (s s' : State) : Prop where
  rest : ∃ taken, s.rest = taken ++ s'.rest ∧ ∀ t ∈ taken, takes t
  faults : ∃ added, s'.faults = s.faults ++ added ∧ ∀ f ∈ added, f.site = none → s'.rest = []

namespace State.Follows

variable {s s' s'' : State}

theorem refl (s : State) : s.Follows takes s :=
  ⟨⟨[], rfl, by simp⟩, ⟨[], (List.append_nil _).symm, by simp⟩⟩

/-- Tokens that are taken in two stretches are taken in one. -/
theorem trans (h : s.Follows takes s') (h' : s'.Follows takes s'') : s.Follows takes s'' := by
  obtain ⟨⟨taken, hrest, htaken⟩, ⟨added, hfaults, hadded⟩⟩ := h
  obtain ⟨⟨taken', hrest', htaken'⟩, ⟨added', hfaults', hadded'⟩⟩ := h'
  refine ⟨⟨taken ++ taken', by rw [hrest, hrest', List.append_assoc], ?_⟩,
    ⟨added ++ added', by rw [hfaults', hfaults, List.append_assoc], ?_⟩⟩
  · intro t ht
    exact (List.mem_append.mp ht).elim (htaken t) (htaken' t)
  · intro f hf hsite
    rcases List.mem_append.mp hf with hf | hf
    · have hend := hrest'.symm.trans (hadded f hf hsite)
      exact (List.append_eq_nil_iff.mp hend).2
    · exact hadded' f hf hsite

/-- A fault at the next token is added. -/
theorem of_fault {f : Fault} (h : s.Follows takes s') (hf : f.site = none → s'.rest = []) :
    s.Follows takes { s' with faults := s'.faults ++ [f] } := by
  refine h.trans ⟨⟨[], rfl, by simp⟩, ⟨[f], rfl, ?_⟩⟩
  rintro f' hf'
  rw [List.mem_singleton.mp hf']
  exact hf

end State.Follows

/-- The outcome follows the state. -/
def Outcome.Follows (takes : Token → Prop) (s : State) : Outcome α → Prop
  | .ok _ s' => s.Follows takes s'
  | .fault f s' => s.Follows takes s' ∧ (f.site = none → s'.rest = [])
  | .exhausted => True

/-- What is left after skipping is an end of what there was. -/
theorem exists_skip (last : Token) (ts : List Token) : ∃ skipped, ts = skipped ++ skip last ts := by
  induction ts generalizing last with
  | nil => exact ⟨[], rfl⟩
  | cons t ts ih =>
    rw [skip]
    split
    · exact ⟨[], rfl⟩
    · obtain ⟨skipped, hskipped⟩ := ih t
      exact ⟨t :: skipped, by rw [List.cons_append, ← hskipped]⟩

/-- Recovery drops tokens from the front and changes no other. -/
theorem exists_recover (ts : List Token) : ∃ skipped, ts = skipped ++ recover ts := by
  cases ts with
  | nil => exact ⟨[], rfl⟩
  | cons t ts =>
    obtain ⟨skipped, hskipped⟩ := exists_skip t ts
    exact ⟨t :: skipped, congrArg (t :: ·) hskipped⟩

/-- **Parsers take tokens off the front and add faults.** -/
theorem Assembled.follows {p : Parser α} (h : Assembled takes p) (s : State) :
    (p s).Follows takes s := by
  induction h generalizing s with
  | pure _ | newNode | newFunction | peek? | nextIs _ =>
    exact ⟨⟨[], rfl, by simp⟩, ⟨[], (List.append_nil _).symm, by simp⟩⟩
  | outOfFuel => exact trivial
  | fail cause => exact ⟨.refl s, List.head?_eq_none_iff.mp⟩
  | report t cause => exact (State.Follows.refl s).of_fault nofun
  | reportHere cause => exact (State.Follows.refl s).of_fault List.head?_eq_none_iff.mp
  | takeIf h =>
    unfold Parse.takeIf
    split
    · exact .refl s
    · next t rest hs =>
      split
      · next ht =>
        refine ⟨⟨[t], hs, ?_⟩, ⟨[], (List.append_nil _).symm, by simp⟩⟩
        intro t' ht'
        exact List.mem_singleton.mp ht' ▸ h t ht
      · exact .refl s
  | @bind _ _ p k _ _ ih ih' =>
    have hp := ih s
    rw [bind_apply]
    cases hps : p s with
    | exhausted => exact trivial
    | fault f s₁ =>
      rw [hps] at hp
      exact hp
    | ok v s₁ =>
      rw [hps] at hp
      have hk := ih' v s₁
      dsimp only
      cases hks : k v s₁ with
      | exhausted => exact trivial
      | ok u s₂ =>
        rw [hks] at hk
        exact hp.trans hk
      | fault f s₂ =>
        rw [hks] at hk
        exact ⟨hp.trans hk.1, hk.2⟩
  | @recovering _ p h _ ih =>
    have hp := ih s
    rw [Parse.recovering]
    cases hps : p s with
    | exhausted => exact trivial
    | ok v s₁ =>
      rw [hps] at hp
      exact hp
    | fault f s₁ =>
      rw [hps] at hp
      obtain ⟨skipped, hskipped⟩ := exists_recover s₁.rest
      refine hp.1.trans ⟨⟨skipped, hskipped, fun t _ => h t⟩, ⟨[f], rfl, ?_⟩⟩
      intro f' hf' hsite
      rw [List.mem_singleton.mp hf'] at hsite
      show recover s₁.rest = []
      rw [hp.2 hsite, recover]

/-! ## Earlier faults -/

/-- The state with faults recorded before its own. -/
def State.recording (earlier : List Fault) (s : State) : State :=
  { s with faults := earlier ++ s.faults }

/-- The outcome with faults recorded before its own. -/
def Outcome.recording (earlier : List Fault) : Outcome α → Outcome α
  | .ok v s => .ok v (s.recording earlier)
  | .fault f s => .fault f (s.recording earlier)
  | .exhausted => .exhausted

/-- **Faults that were recorded before do not matter.** -/
theorem Assembled.recording {p : Parser α} (h : Assembled takes p) (earlier : List Fault)
    (s : State) : p (s.recording earlier) = (p s).recording earlier := by
  induction h generalizing s with
  | pure _ | outOfFuel | fail _ | newNode | newFunction | peek? | nextIs _ => rfl
  | report t cause => simp [Parse.report, Outcome.recording, State.recording]
  | reportHere cause =>
    simp [Parse.reportHere, Parse.report, Outcome.recording, State.recording]
  | @takeIf test h =>
    have hrest : (s.recording earlier).rest = s.rest := rfl
    unfold Parse.takeIf
    rw [hrest]
    split
    · rfl
    · split <;> rfl
  | @bind _ _ p k _ _ ih ih' =>
    rw [bind_apply, bind_apply, ih s]
    cases p s with
    | ok v s₁ => exact ih' v s₁
    | fault f s₁ => rfl
    | exhausted => rfl
  | @recovering _ p h _ ih =>
    rw [Parse.recovering, Parse.recovering, ih s]
    cases p s with
    | ok v s₁ => rfl
    | fault f s₁ => simp [Outcome.recording, State.recording]
    | exhausted => rfl

/-! ## Expressions -/

/-- What takes no other tokens than those that pass is put together in any way. -/
theorem assembled_closed (h : ∀ t, Inside t → takes t) :
    Parsing.Closed fun α (p _ : Parser α) => Assembled takes p where
  pure := .pure
  bind := .bind
  outOfFuel := .outOfFuel
  fail := .fail
  build _ := .bind .newNode fun _ => .pure _
  nextIs := .nextIs
  takeIf inside := .takeIf fun t ht => h t (inside t ht)

/-- No expression reaches over a semicolon. -/
theorem expression_assembled (n : Nat) : Assembled Inside (expression n) :=
  Parsing.ClosedExpr.expression (F := Eq)
    { assembled_closed fun _ => id, (assembled_closed fun _ => id).sameFuel with
      tooManyArguments := .reportHere _
      assignment := fun {p q _ _} => @Parsing.Closed.assignment _ _ _ _ _
        (assembled_closed fun _ => id) (fun t => .report t _) p q p q } rfl

/-! ## Statements -/

theorem expressionUnless_assembled (n : Nat) (stop : Symbol) :
    Assembled Inside (expressionUnless n stop) :=
  (assembled_closed fun _ => id).expressionUnless (k := n) (expression_assembled n) stop

theorem initialValue_assembled (n : Nat) : Assembled Inside (initialValue n) :=
  (assembled_closed fun _ => id).initialValue (k := n) (expression_assembled n)

theorem expect_inside {symbol : Symbol} (h : symbol ≠ .semicolon) (cause : SyntaxCause) :
    Assembled Inside (expect symbol cause) :=
  (assembled_closed fun _ => id).expect h cause

/-- Parameters are names, between which there are commas. -/
theorem parameterList_assembled (n : Nat) : Assembled Inside (parameterList n) :=
  (assembled_closed fun _ => id).parameterList (assembled_closed fun _ => id).sameFuel
    (.reportHere _) rfl

/-- Whatever tokens are taken, what reads statements is put together from small parsers. -/
theorem assembled_statements :
    Parsing.ClosedStmt (fun α (p _ : Parser α) => Assembled (fun _ => True) p) Eq :=
  { assembled_closed fun _ _ => trivial, (assembled_closed fun _ _ => trivial).sameFuel with
    takeAny := fun _ => .takeIf fun _ _ => trivial
    expression := fun {n _} _ => (expression_assembled n).mono fun _ _ => trivial
    newFunction := .newFunction
    peek? := .peek?
    tooManyParameters := .reportHere _
    declared := .recovering fun _ => trivial }

/-- The declarations of a source are assembled: recovery never goes back. -/
theorem declarations_assembled (n : Nat) : Assembled (fun _ => True) (declarations n) :=
  assembled_statements.declarations rfl

end Nya.Parse
