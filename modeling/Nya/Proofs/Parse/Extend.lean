import Nya.Proofs.Parse.Closure
import Nya.Proofs.Parse.Progress

/-!
# Reading with more behind

What a parser reads hardly depends on the tokens behind what it reads. Here more tokens are put
behind the input, and more fuel is given. A parser that leaves a token of its own input then reads
the same. One that reads its input to the end does so, too, if it found no fault and the new tokens
do not go on with what it read: after a conditional an `^e^` would.

So the declarations of two lists of tokens in a row are those of the first and then those of the
second.
-/

namespace Nya.Parse

/-- The state with more tokens behind. -/
def State.extend (extra : List Token) (s : State) : State := { s with rest := s.rest ++ extra }

/-- No token was put back since the earlier state, and no fault forgotten. -/
structure State.Before (s s' : State) : Prop where
  rest : s'.rest.length ≤ s.rest.length
  faults : s.faults.length ≤ s'.faults.length

theorem State.Before.refl (s : State) : s.Before s := ⟨Nat.le_refl _, Nat.le_refl _⟩

theorem State.Before.trans {s s' s'' : State} (h : s.Before s') (h' : s'.Before s'') :
    s.Before s'' :=
  ⟨Nat.le_trans h'.rest h.rest, Nat.le_trans h.faults h'.faults⟩

/--
What was read up to the later state is settled: nothing comes behind, or a token is left, or there
was no fault and the parser, being `free`, does not look any further.
-/
def State.Settled (extra : List Token) (free : Prop) (s s' : State) : Prop :=
  extra = [] ∨ s'.rest ≠ [] ∨ free ∧ s'.faults.length = s.faults.length

/-- What is settled for the whole way is settled for its second part. -/
theorem State.Settled.second {extra : List Token} {free : Prop} {s s₁ s₂ : State}
    (h : s.Settled extra free s₂) (h₁ : s.Before s₁) (h₂ : s₁.Before s₂) :
    s₁.Settled extra free s₂ := by
  rcases h with hnil | hrest | ⟨hfree, hfaults⟩
  · exact Or.inl hnil
  · exact Or.inr (Or.inl hrest)
  · have hle := h₁.faults
    have hle' := h₂.faults
    exact Or.inr (Or.inr ⟨hfree, by omega⟩)

/-- The first part is settled, too, if it looks no further or leaves a token to the second. -/
theorem State.Settled.first {extra : List Token} {free free' : Prop} {s s₁ s₂ : State}
    (h : s.Settled extra free s₂) (h₁ : s.Before s₁) (h₂ : s₁.Before s₂)
    (hfree : free → free' ∨ s₁.rest ≠ []) : s.Settled extra free' s₁ := by
  rcases h with hnil | hrest | ⟨hf, hfaults⟩
  · exact Or.inl hnil
  · refine Or.inr (Or.inl fun hnil => hrest ?_)
    have hle := h₂.rest
    rw [hnil] at hle
    exact List.length_eq_zero_iff.mp (Nat.le_zero.mp hle)
  · rcases hfree hf with hf' | hrest
    · have hle := h₁.faults
      have hle' := h₂.faults
      exact Or.inr (Or.inr ⟨hf', by omega⟩)
    · exact Or.inr (Or.inl hrest)

/-- What is settled in the first outcome stands in the second one, with more tokens behind. -/
def Outcome.Extends {α : Type} (extra : List Token) (free : Prop) (s : State) :
    Outcome α → Outcome α → Prop
  | .ok v s', o =>
    s.Before s' ∧ (s.Settled extra free s' → o = .ok v (s'.extend extra))
  | .fault f s', o =>
    s.Before s' ∧ (s.Settled extra False s' → o = .fault f (s'.extend extra))
  | .exhausted, _ => True

/-- The second parser reads what the first one does, with more tokens behind. -/
def Extends {α : Type} (extra : List Token) (free : Prop) (p q : Parser α) : Prop :=
  ∀ s, (p s).Extends extra free s (q (s.extend extra))

/-- The parser does not succeed at the end of the input. -/
def Demands {α : Type} (p : Parser α) : Prop :=
  ∀ s v s', s.rest = [] → p s ≠ .ok v s'

variable {α β : Type} {extra : List Token} {free : Prop}

/-! ## Parsers that take a token -/

/-- A parser that takes a token needs one. -/
theorem Demands.of_takes {p : Parser α} {out : State → Prop}
    (h : ∀ s, (p s).Takes 1 s.rest.length (out s)) : Demands p := by
  intro s v s' hs hp
  have hle := h s
  rw [hp, hs] at hle
  exact Nat.not_succ_le_zero _ hle

/-- What starts with a parser that needs a token needs one. -/
theorem Demands.bind {p : Parser β} (h : Demands p) (k : β → Parser α) : Demands (p >>= k) := by
  intro s v s' hs
  rw [bind_apply]
  cases hp : p s with
  | ok u s₁ => exact absurd hp (h s u s₁ hs)
  | fault f s₁ => exact nofun
  | exhausted => exact nofun

/-- A parser that needs a token still does after others have taken some. -/
theorem Demands.after {p : Parser β} {k : β → Parser α} {out : State → Prop}
    (hp : ∀ s, (p s).Takes 0 s.rest.length (out s)) (hk : ∀ v, Demands (k v)) :
    Demands (p >>= k) := by
  intro s v s' hs
  have hle := hp s
  rw [bind_apply]
  cases hp : p s with
  | ok u s₁ =>
    rw [hp, hs] at hle
    exact hk u s₁ v s' (List.length_eq_zero_iff.mp (Nat.le_zero.mp hle))
  | fault f s₁ => exact nofun
  | exhausted => exact nofun

theorem takeIf_demands {test : Token → Bool} {k : Option Token → Parser α}
    (hk : ∀ v, Demands (k v)) : Demands (takeIf test >>= k) := by
  intro s v s' hs
  rw [bind_apply, takeIf, hs]
  exact hk none s v s' hs

/-- A symbol that is asked for has to be there. -/
theorem expect_demands (symbol : Symbol) (cause : SyntaxCause) : Demands (expect symbol cause) := by
  intro s v s' hs
  simp [expect_eq, take?, takeIf, bind_apply, hs, fail]

/-! ## Sequences and small parsers -/

namespace Extends

theorem outOfFuel {q : Parser α} : Extends extra free outOfFuel q := fun _ => trivial

theorem pure (v : α) : Extends extra free (pure v) (pure v) :=
  fun s => ⟨State.Before.refl s, fun _ => rfl⟩

/--
A sequence reads the same if its parts do. If the first part looks further than the whole may, the
second one has to take a token.
-/
theorem bind {p q : Parser β} {k k' : β → Parser α} {free' : Prop}
    (hp : Extends extra free' p q) (hfree : free → free' ∨ ∀ v, Demands (k v))
    (hk : ∀ v, Extends extra free (k v) (k' v)) : Extends extra free (p >>= k) (q >>= k') := by
  intro s
  have hs := hp s
  rw [bind_apply, bind_apply]
  cases hps : p s with
  | exhausted => exact trivial
  | fault f s₁ =>
    rw [hps] at hs
    refine ⟨hs.1, fun hsettled => ?_⟩
    rw [hs.2 hsettled]
  | ok v s₁ =>
    rw [hps] at hs
    have hv := hk v s₁
    dsimp only
    cases hks : k v s₁ with
    | exhausted => exact trivial
    | fault f s₂ =>
      rw [hks] at hv
      refine ⟨hs.1.trans hv.1, fun hsettled => ?_⟩
      rw [hs.2 (hsettled.first hs.1 hv.1 False.elim)]
      exact hv.2 (hsettled.second hs.1 hv.1)
    | ok u s₂ =>
      rw [hks] at hv
      have hleft : free → free' ∨ s₁.rest ≠ [] :=
        fun hf => (hfree hf).imp_right fun hd hnil => hd v s₁ u s₂ hnil hks
      refine ⟨hs.1.trans hv.1, fun hsettled => ?_⟩
      rw [hs.2 (hsettled.first hs.1 hv.1 hleft)]
      exact hv.2 (hsettled.second hs.1 hv.1)

/-- A parser that may look no further may do so all the more if it need not. -/
theorem strict {p q : Parser α} (h : Extends extra free p q) : Extends extra False p q := by
  intro s
  have hs := h s
  cases hp : p s with
  | exhausted => exact trivial
  | fault f s₁ =>
    rw [hp] at hs
    exact hs
  | ok v s₁ =>
    rw [hp] at hs
    exact ⟨hs.1, fun hsettled => hs.2 (hsettled.imp_right (Or.imp_right fun h => h.1.elim))⟩

end Extends

theorem newNode_extends : Extends extra free newNode newNode :=
  fun _ => ⟨⟨Nat.le_refl _, Nat.le_refl _⟩, fun _ => rfl⟩

theorem newFunction_extends : Extends extra free newFunction newFunction :=
  fun _ => ⟨⟨Nat.le_refl _, Nat.le_refl _⟩, fun _ => rfl⟩

/-- A fault is reported at the same token, whatever follows. -/
theorem report_extends (f : Fault) : Extends extra free (report f) (report f) := by
  refine fun s => ⟨⟨Nat.le_refl _, ?_⟩, fun _ => rfl⟩
  rw [List.length_append]
  exact Nat.le_add_right _ _

/-- The next token is settled if one is left. -/
theorem State.Settled.head?_extend {s s' : State} (h : s.Settled extra False s') :
    (s'.extend extra).rest.head? = s'.rest.head? := by
  rcases h with rfl | hrest | ⟨h, -⟩
  · exact congrArg List.head? (List.append_nil _)
  · obtain ⟨t, rest, hs⟩ := List.exists_cons_of_ne_nil hrest
    simp [extend, hs]
  · exact h.elim

theorem fail_extends (cause : SyntaxCause) :
    Extends extra free (fail cause : Parser α) (fail cause) := by
  refine fun s => ⟨State.Before.refl s, fun hsettled => ?_⟩
  rw [fail, hsettled.head?_extend]

/-- Looking at the next token sees the same one, if there is one. -/
theorem nextIs_extends (symbol : Symbol) :
    Extends extra False (nextIs symbol) (nextIs symbol) := by
  refine fun s => ⟨State.Before.refl s, fun hsettled => ?_⟩
  rw [nextIs_apply, hsettled.head?_extend]

/-- Where a next token has to be there, the one behind the end is not looked at. -/
theorem peek?_extends {k k' : Option Token → Parser α} {cause : SyntaxCause}
    (hnone : k none = fail cause) (hnone' : k' none = fail cause)
    (hsome : ∀ t, Extends extra free (k (some t)) (k' (some t))) :
    Extends extra free (peek? >>= k) (peek? >>= k') := by
  intro s
  rw [bind_apply, bind_apply, peek?, peek?]
  cases hs : s.rest.head? with
  | none =>
    dsimp only
    rw [hnone]
    refine ⟨State.Before.refl s, fun hsettled => ?_⟩
    rw [hsettled.head?_extend.trans hs, hnone']
    have hfail : Extends extra free (fail cause : Parser α) (fail cause) := fail_extends cause
    exact (hfail s).2 hsettled
  | some t =>
    have hhead : (s.extend extra).rest.head? = some t := by simp [State.extend, hs]
    rw [hhead]
    exact hsome t s

theorem reportHere_extends (cause : SyntaxCause) :
    Extends extra False (reportHere cause) (reportHere cause) := by
  refine fun s => ⟨⟨Nat.le_refl _, ?_⟩, fun hsettled => ?_⟩
  · rw [List.length_append]
    exact Nat.le_add_right _ _
  · have hhead : (s.extend extra).rest.head? = s.rest.head? := hsettled.head?_extend
    rw [reportHere, hhead]
    rfl

theorem takeIf_cons {test : Token → Bool} {s : State} {t : Token} {rest : List Token}
    (hs : s.rest = t :: rest) :
    takeIf test s = if test t then .ok (some t) { s with rest } else .ok none s := by
  rw [takeIf, hs]

/-- A token is taken in the same way, unless it is the first of those that follow. -/
theorem takeIf_extends (test : Token → Bool) :
    Extends extra (extra.head?.any test = false) (takeIf test) (takeIf test) := by
  intro s
  cases hs : s.rest with
  | nil =>
    -- The first of the tokens behind is the next one now, and must not be taken.
    rw [takeIf, hs]
    refine ⟨State.Before.refl s, fun hsettled => ?_⟩
    have hrest : (s.extend extra).rest = extra := by rw [State.extend, hs, List.nil_append]
    have htest : extra.head?.any test = false := by
      rcases hsettled with rfl | hne | ⟨htest, -⟩
      · rfl
      · exact absurd hs hne
      · exact htest
    cases extra with
    | nil => rw [takeIf, hrest]
    | cons t extra =>
      rw [takeIf_cons hrest, if_neg]
      simpa using htest
  | cons t rest =>
    have hrest : (s.extend extra).rest = t :: (rest ++ extra) := by
      rw [State.extend, hs, List.cons_append]
    rw [takeIf_cons hs, takeIf_cons hrest]
    split
    · refine ⟨⟨?_, Nat.le_refl _⟩, fun _ => rfl⟩
      rw [hs]
      exact Nat.le_succ _
    · exact ⟨State.Before.refl s, fun _ => rfl⟩

/-- A token that has to be there is not looked for among those behind. -/
theorem required_extends (test : Token → Bool) (cause : SyntaxCause) :
    Extends extra free
      (do
        match ← takeIf test with
        | some t => pure t
        | none => fail cause)
      (do
        match ← takeIf test with
        | some t => pure t
        | none => fail cause) := by
  intro s
  cases hs : s.rest with
  | nil =>
    rw [bind_apply, takeIf, hs]
    refine ⟨State.Before.refl s, fun hsettled => ?_⟩
    rcases hsettled with rfl | hne | ⟨h, -⟩
    · have hrest : (s.extend []).rest = [] := by rw [State.extend, hs, List.append_nil]
      rw [bind_apply, takeIf, hrest]
      dsimp only
      rw [fail, hrest, hs]
    · exact absurd hs hne
    · exact h.elim
  | cons t rest =>
    have hrest : (s.extend extra).rest = t :: (rest ++ extra) := by
      rw [State.extend, hs, List.cons_append]
    rw [bind_apply, bind_apply, takeIf_cons hs, takeIf_cons hrest]
    by_cases ht : test t = true
    · rw [if_pos ht, if_pos ht]
      refine ⟨⟨?_, Nat.le_refl _⟩, fun _ => rfl⟩
      rw [hs]
      exact Nat.le_succ _
    · rw [if_neg ht, if_neg ht]
      exact fail_extends cause s

theorem expect_extends (symbol : Symbol) (cause : SyntaxCause) :
    Extends extra free (expect symbol cause) (expect symbol cause) :=
  required_extends _ cause

theorem expectName_extends (cause : SyntaxCause) :
    Extends extra free (expectName cause) (expectName cause) :=
  required_extends _ cause

/-! ## Recovery -/

/-- Recovery stops at the same token, if there is one to stop at. -/
theorem skip_append : ∀ (last : Token) (ts : List Token), skip last ts ≠ [] →
    skip last (ts ++ extra) = skip last ts ++ extra
  | _, [], h => absurd rfl h
  | last, t :: ts, h => by
    rw [List.cons_append, skip, skip]
    rw [skip] at h
    split
    · rfl
    · next hgo =>
      rw [if_neg hgo] at h
      exact skip_append t ts h

/-- After a fault, reading goes on at the same token, if there is one. -/
theorem recover_append {ts : List Token} (h : recover ts ≠ []) :
    recover (ts ++ extra) = recover ts ++ extra := by
  cases ts with
  | nil => exact absurd rfl h
  | cons t ts => exact skip_append t ts h

/-- Recovery from a fault depends on what follows no more than the parser does. -/
theorem recovering_extends {p q : Parser α} (h : Extends extra free p q) :
    Extends extra free (recovering p) (recovering q) := by
  intro s
  have hs := h s
  rw [recovering, recovering]
  cases hp : p s with
  | exhausted => exact trivial
  | ok v s' =>
    rw [hp] at hs
    refine ⟨hs.1, fun hsettled => ?_⟩
    rw [hs.2 hsettled]
  | fault f s' =>
    rw [hp] at hs
    have hle := recover_length_le s'.rest
    have hrest := hs.1.rest
    have hfaults := hs.1.faults
    have hlength : (s'.faults ++ [f]).length = s'.faults.length + 1 := List.length_append
    refine ⟨⟨?_, ?_⟩, fun hsettled => ?_⟩
    · show (recover s'.rest).length ≤ s.rest.length
      omega
    · show s.faults.length ≤ (s'.faults ++ [f]).length
      omega
    · have hcarried : s.Settled extra False s' ∧
          recover (s'.rest ++ extra) = recover s'.rest ++ extra := by
        rcases hsettled with rfl | hne | ⟨-, hsame⟩
        · exact ⟨Or.inl rfl, by rw [List.append_nil, List.append_nil]⟩
        · refine ⟨Or.inr (Or.inl fun hnil => hne ?_), recover_append hne⟩
          show recover s'.rest = []
          rw [hnil, recover]
        · -- The fault was recorded, so the faults are not what they were.
          have hsame : (s'.faults ++ [f]).length = s.faults.length := hsame
          omega
      rw [hs.2 hcarried.1]
      simp only [State.extend, hcarried.2]

/-! ## Expressions and lists

What looks at the token behind it has to leave one. -/

theorem extends_closed : Parsing.Closed fun α (p q : Parser α) => Extends extra False p q where
  pure := .pure
  bind hp hk := hp.bind False.elim hk
  outOfFuel := .outOfFuel
  fail := fail_extends
  build _ := newNode_extends.bind Or.inl fun _ => .pure _
  nextIs := nextIs_extends
  takeIf _ := (takeIf_extends _).strict

theorem extends_fuels :
    Parsing.Fuels (fun α (p q : Parser α) => Extends extra False p q) (· ≤ ·) :=
  .le fun _ => .outOfFuel

/-- An expression that is read to its end is read in the same way, whatever follows. -/
theorem expression_extends {n m : Nat} (h : n ≤ m) :
    Extends extra False (expression n) (expression m) :=
  Parsing.ClosedExpr.expression
    { extends_closed, extends_fuels with
      tooManyArguments := reportHere_extends _
      assignment := extends_closed.assignment fun _ => report_extends _ } h

theorem extends_statements :
    Parsing.ClosedStmt (fun α (p q : Parser α) => Extends extra False p q) (· ≤ ·) :=
  { extends_closed, extends_fuels with
    takeAny := fun _ => (takeIf_extends _).strict
    expression := expression_extends
    newFunction := newFunction_extends
    peek? := fun s => ⟨.refl s, fun hsettled => congrArg (Outcome.ok · _) hsettled.head?_extend⟩
    tooManyParameters := reportHere_extends _
    declared := recovering_extends }

theorem expressionUnless_extends {n m : Nat} (h : n ≤ m) (stop : Symbol) :
    Extends extra False (expressionUnless n stop) (expressionUnless m stop) :=
  extends_statements.expressionUnless h stop

theorem parameterList_extends {n m : Nat} (h : n ≤ m) :
    Extends extra False (parameterList n) (parameterList m) :=
  extends_closed.parameterList extends_fuels (reportHere_extends _) h

theorem initializer_extends {n m : Nat} (h : n ≤ m) :
    Extends extra False (initializer n) (initializer m) :=
  extends_statements.initializer h

/-! ## Statements -/

theorem terminated_extends {n m : Nat} (h : n ≤ m) (cause : SyntaxCause) :
    Extends extra free (terminated n cause) (terminated m cause) := by
  refine (expression_extends h).bind (fun _ => Or.inr fun e => ?_) fun e => ?_
  · exact (expect_demands _ _).bind _
  · exact (expect_extends _ _).bind Or.inl fun close => .pure e

theorem variableDecl_extends {n m : Nat} (h : n ≤ m) :
    Extends extra free (variableDecl n) (variableDecl m) := by
  rw [variableDecl_eq, variableDecl_eq]
  refine (expectName_extends _).bind Or.inl fun name => ?_
  refine (extends_statements.initialValue h).bind (fun _ => Or.inr fun init => ?_) fun init => ?_
  · exact (expect_demands _ _).bind _
  · exact (expect_extends _ _).bind Or.inl fun close => .pure _

theorem conditionOr_extends (condition : Option Expr) :
    Extends extra free (conditionOr condition) (conditionOr condition) := by
  cases condition with
  | some condition => exact .pure condition
  | none => exact newNode_extends.bind Or.inl fun id => .pure _

/-! ## Declarations -/

/-- The tokens do not go on with a conditional before them. -/
def Unattached (tokens : List Token) : Prop :=
  tokens.head?.any (fun t => t.isSymbol .ifElse) = false

mutual

/-- A declaration that is read to its end is read in the same way, whatever is attached. -/
theorem declaration_extends (hextra : Unattached extra) : ∀ {n m : Nat}, n ≤ m →
    Extends extra True (declaration n) (declaration m)
  | 0, _, _ => .outOfFuel
  | n + 1, m + 1, h => by
    have h := Nat.le_of_succ_le_succ h
    have hnext : ∀ var : Option Token, Demands (match var with
        | some _ => variableDecl n
        | none => statement n) := by
      intro var
      cases var with
      | some var => exact .of_takes (variableDecl_takes n)
      | none => exact .of_takes (statement_takes n)
    rw [declaration_succ, declaration_succ]
    refine (takeIf_extends _).bind (fun _ => Or.inr fun function => ?_) fun function => ?_
    · cases function with
      | some function => exact .of_takes (functionDecl_takes n)
      | none => exact takeIf_demands hnext
    · cases function with
      | some function => exact functionDecl_extends hextra h
      | none =>
        refine (takeIf_extends _).bind (fun _ => Or.inr hnext) fun var => ?_
        cases var with
        | some var => exact variableDecl_extends h
        | none => exact statement_extends hextra h
termination_by structural n => n

theorem functionDecl_extends (hextra : Unattached extra) : ∀ {n m : Nat}, n ≤ m →
    Extends extra True (functionDecl n) (functionDecl m)
  | 0, _, _ => .outOfFuel
  | n + 1, m + 1, h => by
    have h := Nat.le_of_succ_le_succ h
    rw [functionDecl_succ, functionDecl_succ]
    refine (expectName_extends _).bind Or.inl fun name => ?_
    refine (expect_extends _ _).bind Or.inl fun paren => ?_
    refine (parameterList_extends h).bind (fun _ => Or.inr fun params => ?_) fun params => ?_
    · exact (expect_demands _ _).bind _
    refine (expect_extends _ _).bind Or.inl fun close => ?_
    refine (expect_extends _ _).bind Or.inl fun start => ?_
    refine (block_extends hextra h).bind Or.inl fun body => ?_
    exact newFunction_extends.bind Or.inl fun id => .pure _
termination_by structural n => n

theorem statement_extends (hextra : Unattached extra) : ∀ {n m : Nat}, n ≤ m →
    Extends extra True (statement n) (statement m)
  | 0, _, _ => .outOfFuel
  | n + 1, m + 1, h => by
    have h := Nat.le_of_succ_le_succ h
    rw [statement_succ, statement_succ]
    refine (takeIf_extends _).bind (fun _ => Or.inr fun first => ?_) fun first => ?_
    · cases first with
      | none => exact (Demands.of_takes (terminated_takes n _)).bind _
      | some t =>
        refine statementFrom_cases (motive := Demands) n t (.of_takes (forLoop_takes n))
          (.of_takes (branch_takes n)) ?_ ?_ (.of_takes (whileLoop_takes n)) ?_
        · exact (Demands.of_takes (terminated_takes n _)).bind _
        · exact .after (expressionUnless_takes n _) fun value => (expect_demands _ _).bind _
        · exact (Demands.of_takes (block_takes n)).bind _
    · cases first with
      | none => exact (terminated_extends h _).bind Or.inl fun e => .pure _
      | some t =>
        show Extends extra True (statementFrom n t) (statementFrom m t)
        unfold statementFrom
        split
        · exact forLoop_extends hextra h
        · exact branch_extends hextra h
        · exact (terminated_extends h _).bind Or.inl fun e => .pure _
        · refine (expressionUnless_extends h _).bind (fun _ => Or.inr fun value => ?_)
            fun value => ?_
          · exact (expect_demands _ _).bind _
          · exact (expect_extends _ _).bind Or.inl fun close => .pure _
        · exact whileLoop_extends hextra h
        · exact (block_extends hextra h).bind Or.inl fun body => .pure _
termination_by structural n => n

theorem forLoop_extends (hextra : Unattached extra) : ∀ {n m : Nat}, n ≤ m →
    Extends extra True (forLoop n) (forLoop m)
  | 0, _, _ => .outOfFuel
  | n + 1, m + 1, h => by
    have h := Nat.le_of_succ_le_succ h
    rw [forLoop_succ, forLoop_succ]
    refine (expect_extends _ _).bind Or.inl fun paren => ?_
    refine (initializer_extends h).bind (fun _ => Or.inr fun init => ?_) fun init => ?_
    · exact .after (expressionUnless_takes n _) fun condition => (expect_demands _ _).bind _
    refine (expressionUnless_extends h _).bind (fun _ => Or.inr fun condition => ?_)
      fun condition => ?_
    · exact (expect_demands _ _).bind _
    refine (expect_extends _ _).bind Or.inl fun semicolon => ?_
    refine (expressionUnless_extends h _).bind (fun _ => Or.inr fun increment => ?_)
      fun increment => ?_
    · exact (expect_demands _ _).bind _
    refine (expect_extends _ _).bind Or.inl fun close => ?_
    refine (statement_extends hextra h).bind Or.inl fun body => ?_
    exact (conditionOr_extends condition).bind Or.inl fun test => .pure _
termination_by structural n => n

theorem branch_extends (hextra : Unattached extra) : ∀ {n m : Nat}, n ≤ m →
    Extends extra True (branch n) (branch m)
  | 0, _, _ => .outOfFuel
  | n + 1, m + 1, h => by
    have h := Nat.le_of_succ_le_succ h
    rw [branch_succ, branch_succ]
    refine (expect_extends _ _).bind Or.inl fun paren => ?_
    refine (expression_extends h).bind (fun _ => Or.inr fun condition => ?_) fun condition => ?_
    · exact (expect_demands _ _).bind _
    refine (expect_extends _ _).bind Or.inl fun close => ?_
    refine (statement_extends hextra h).bind Or.inl fun thenBranch => ?_
    -- Only here the parser looks at the token behind a statement.
    refine (takeIf_extends _).bind (fun _ => Or.inl hextra) fun otherwise => ?_
    cases otherwise with
    | none => exact .pure _
    | some otherwise => exact (statement_extends hextra h).bind Or.inl fun elseBranch => .pure _
termination_by structural n => n

theorem whileLoop_extends (hextra : Unattached extra) : ∀ {n m : Nat}, n ≤ m →
    Extends extra True (whileLoop n) (whileLoop m)
  | 0, _, _ => .outOfFuel
  | n + 1, m + 1, h => by
    have h := Nat.le_of_succ_le_succ h
    rw [whileLoop_succ, whileLoop_succ]
    refine (expect_extends _ _).bind Or.inl fun paren => ?_
    refine (expression_extends h).bind (fun _ => Or.inr fun condition => ?_) fun condition => ?_
    · exact (expect_demands _ _).bind _
    refine (expect_extends _ _).bind Or.inl fun close => ?_
    exact (statement_extends hextra h).bind Or.inl fun body => .pure _
termination_by structural n => n

theorem block_extends (hextra : Unattached extra) : ∀ {n m : Nat}, n ≤ m →
    Extends extra True (block n) (block m)
  | 0, _, _ => .outOfFuel
  | n + 1, m + 1, h => by
    have h := Nat.le_of_succ_le_succ h
    rw [block_succ, block_succ]
    refine peek?_extends rfl rfl fun t => ?_
    dsimp only
    split
    · exact (expect_extends _ _).bind Or.inl fun close => .pure []
    · refine (recovering_extends (declaration_extends hextra h)).bind Or.inl fun first => ?_
      exact (block_extends hextra h).bind Or.inl fun others => .pure _
termination_by structural n => n

end

/-! ## Programs -/

variable {n m : Nat} {s s₁ s₂ : State} {slots others : List (Option Stmt)}

/-- Where no token is left, there are no declarations. -/
theorem declarations_nil (n : Nat) (hs : s.rest = []) : declarations (n + 1) s = .ok [] s := by
  rw [declarations_succ, bind_apply, peek?, hs]
  rfl

/-- A declaration and those after it, put together. -/
theorem declarations_cons {first : Option Stmt} (hs : s.rest ≠ [])
    (h₁ : recovering (declaration n) s = .ok first s₁) (h₂ : declarations n s₁ = .ok others s₂) :
    declarations (n + 1) s = .ok (first :: others) s₂ := by
  obtain ⟨t, rest, ht⟩ := List.exists_cons_of_ne_nil hs
  rw [declarations_succ, bind_apply, peek?, ht]
  dsimp only [List.head?_cons]
  rw [bind_apply, h₁]
  dsimp only
  rw [bind_apply, h₂]
  rfl

/-- Where tokens are left, a declaration is read first, and then the others. -/
theorem exists_of_declarations (hs : s.rest ≠ []) (h : declarations (n + 1) s = .ok slots s₂) :
    ∃ first s₁ others, recovering (declaration n) s = .ok first s₁ ∧
      declarations n s₁ = .ok others s₂ ∧ slots = first :: others := by
  obtain ⟨t, rest, ht⟩ := List.exists_cons_of_ne_nil hs
  rw [declarations_succ, bind_apply, peek?, ht] at h
  dsimp only [List.head?_cons] at h
  rw [bind_apply] at h
  cases h₁ : recovering (declaration n) s with
  | fault f s₁ => simp [h₁] at h
  | exhausted => simp [h₁] at h
  | ok first s₁ =>
    rw [h₁] at h
    dsimp only at h
    rw [bind_apply] at h
    cases h₂ : declarations n s₁ with
    | fault f s₁ => simp [h₂] at h
    | exhausted => simp [h₂] at h
    | ok others s' =>
      rw [h₂] at h
      obtain ⟨rfl, rfl⟩ := Outcome.ok.inj h
      exact ⟨first, s₁, others, rfl, h₂, rfl⟩

theorem State.extend_nil (s : State) : s.extend [] = s := by
  rw [extend, List.append_nil]

/-- One declaration reads the same with more fuel. -/
theorem recovering_of_le {first : Option Stmt} (h : n ≤ m)
    (h₁ : recovering (declaration n) s = .ok first s₁) :
    s.Before s₁ ∧ recovering (declaration m) s = .ok first s₁ := by
  have hnil : Unattached [] := rfl
  have hextends : Extends [] True (recovering (declaration n)) (recovering (declaration m)) :=
    recovering_extends (declaration_extends hnil h)
  have hs := hextends s
  rw [h₁, State.extend_nil] at hs
  refine ⟨hs.1, ?_⟩
  rw [hs.2 (Or.inl rfl), State.extend_nil]

/-- More fuel changes nothing. -/
theorem declarations_of_le (h : n ≤ m) (hp : declarations n s = .ok slots s₂) :
    declarations m s = .ok slots s₂ := by
  induction n generalizing m s slots with
  | zero => cases hp
  | succ n ih =>
    obtain ⟨m, rfl⟩ := Nat.exists_eq_add_of_le' (Nat.lt_of_lt_of_le (Nat.succ_pos n) h)
    by_cases hs : s.rest = []
    · rw [declarations_nil n hs] at hp
      rw [declarations_nil m hs, hp]
    · obtain ⟨first, s₁, others, h₁, h₂, rfl⟩ := exists_of_declarations hs hp
      have h := Nat.le_of_succ_le_succ h
      exact declarations_cons hs (recovering_of_le h h₁).2 (ih h h₂)

/-- Declarations give out numbers and never take one back. -/
theorem declarations_before (hp : declarations n s = .ok slots s₂) : s.Before s₂ := by
  induction n generalizing s slots with
  | zero => cases hp
  | succ n ih =>
    by_cases hs : s.rest = []
    · rw [declarations_nil n hs] at hp
      obtain ⟨-, rfl⟩ := Outcome.ok.inj hp
      exact State.Before.refl s
    · obtain ⟨first, s₁, others, h₁, h₂, -⟩ := exists_of_declarations hs hp
      exact (recovering_of_le (Nat.le_refl n) h₁).1.trans (ih h₂)

/--
**The declarations of two lists of tokens in a row are those of the first and those of the
second**, if the first has no fault and the second does not go on with it.
-/
theorem declarations_append (hextra : Unattached extra) {s' : State}
    (hp : declarations n s = .ok slots s₁) (hfaults : s₁.faults.length = s.faults.length)
    (hq : declarations m (s₁.extend extra) = .ok others s') :
    declarations (n + m) (s.extend extra) = .ok (slots ++ others) s' := by
  induction n generalizing s slots with
  | zero => cases hp
  | succ n ih =>
    by_cases hs : s.rest = []
    · -- The first list is at its end: the second one is read with the fuel that is left.
      rw [declarations_nil n hs] at hp
      obtain ⟨rfl, rfl⟩ := Outcome.ok.inj hp
      exact declarations_of_le (Nat.le_add_left m (n + 1)) hq
    · obtain ⟨first, s₂, rest, h₁, h₂, rfl⟩ := exists_of_declarations hs hp
      have hbefore := (recovering_of_le (Nat.le_refl n) h₁).1.faults
      have hbefore' := (declarations_before h₂).faults
      have hextends : Extends extra True (recovering (declaration n))
          (recovering (declaration (n + m))) :=
        recovering_extends (declaration_extends hextra (Nat.le_add_right n m))
      have hfirst := hextends s
      rw [h₁] at hfirst
      have hs' : (s.extend extra).rest ≠ [] := by simp [State.extend, hs]
      rw [Nat.succ_add]
      exact declarations_cons hs' (hfirst.2 (Or.inr (Or.inr ⟨trivial, by omega⟩)))
        (ih h₂ (by omega))

/-! ## No program starts with an `^e^` -/

/-- The next token is an `^e^`. -/
def State.AtElse (s : State) : Prop := ∃ t rest, s.rest = t :: rest ∧ t.kind = .symbol .ifElse

/-- The outcome is no success. -/
def Outcome.Refused (o : Outcome α) : Prop := o.Meets (fun _ _ => False) (fun _ => True) True

/-- What starts with a refusal is one. -/
theorem Outcome.Refused.seq {p : Parser β} (h : (p s).Refused) (k : β → Parser α) :
    ((p >>= k) s).Refused :=
  Outcome.Meets.seq h (fun _ _ => trivial) id fun _ _ h => h.elim

theorem refused_takeIf {test : Token → Bool} {k : Option Token → Parser α} (hs : s.AtElse)
    (htest : ∀ t, t.kind = .symbol .ifElse → test t = false) (hk : (k none s).Refused) :
    ((takeIf test >>= k) s).Refused := by
  obtain ⟨t, rest, hrest, hkind⟩ := hs
  rw [bind_apply, takeIf_cons hrest, htest t hkind]
  exact hk

theorem isSymbol_of_kind {t : Token} {symbol other : Symbol} (h : t.kind = .symbol symbol) :
    t.isSymbol other = decide (symbol = other) := by
  rw [Token.isSymbol, h]
  by_cases heq : symbol = other <;> simp [heq]

/-- No expression starts with `^e^`. -/
theorem primary_refused (hs : s.AtElse) (n : Nat) : (primary n s).Refused := by
  cases n with
  | zero => exact trivial
  | succ n =>
    rw [primary_succ]
    refine refused_takeIf hs ?_ (refused_takeIf hs ?_ (refused_takeIf hs ?_ trivial))
    · intro t ht
      simp [literal?, ht]
    · intro t ht
      simp [ht]
    · intro t ht
      simp [isSymbol_of_kind ht]

theorem unary_refused (hs : s.AtElse) (n : Nat) : (unary n s).Refused := by
  cases n with
  | zero => exact trivial
  | succ n =>
    rw [unary_succ]
    refine refused_takeIf hs ?_ ((primary_refused hs n).seq _)
    intro t ht
    simp [isSymbol_of_kind ht]

theorem level_refused (hs : s.AtElse) (n : Nat) (ls : List Level) : (level n ls s).Refused := by
  induction n generalizing ls with
  | zero => exact trivial
  | succ n ih =>
    cases ls with
    | nil =>
      rw [level_nil]
      exact unary_refused hs n
    | cons l tighter =>
      rw [level_cons]
      exact (ih tighter).seq _

theorem terminated_refused (hs : s.AtElse) (n : Nat) (cause : SyntaxCause) :
    (terminated n cause s).Refused := by
  rw [terminated_eq]
  refine Outcome.Refused.seq ?_ _
  cases n with
  | zero => exact trivial
  | succ n =>
    rw [expression_succ]
    exact (level_refused hs n levels).seq _

/-- No statement starts with `^e^`. -/
theorem statement_refused (hs : s.AtElse) (n : Nat) : (statement n s).Refused := by
  cases n with
  | zero => exact trivial
  | succ n =>
    rw [statement_succ]
    refine refused_takeIf hs ?_ ((terminated_refused hs n _).seq _)
    intro t ht
    simp [isSymbol_of_kind ht]

/-- Nothing that a program consists of starts with `^e^`. -/
theorem declaration_refused (hs : s.AtElse) (n : Nat) : (declaration n s).Refused := by
  cases n with
  | zero => exact trivial
  | succ n =>
    rw [declaration_succ]
    refine refused_takeIf hs ?_ (refused_takeIf hs ?_ (statement_refused hs n))
    · intro t ht
      simp [isSymbol_of_kind ht]
    · intro t ht
      simp [isSymbol_of_kind ht]

/-- A refused declaration leaves a fault. -/
theorem recovering_faults_lt {first : Option Stmt} (hs : s.AtElse)
    (h : recovering (declaration n) s = .ok first s₁) : s.faults.length < s₁.faults.length := by
  have hnil : Unattached [] := rfl
  have hrefused := declaration_refused hs n
  have hbefore := declaration_extends hnil (Nat.le_refl n) s
  rw [recovering] at h
  cases hd : declaration n s with
  | ok v s' =>
    rw [hd] at hrefused
    exact hrefused.elim
  | fault f s' =>
    rw [hd] at h hbefore
    obtain ⟨-, rfl⟩ := Outcome.ok.inj h
    rw [List.length_append]
    exact Nat.lt_succ_of_le hbefore.1.faults
  | exhausted =>
    rw [hd] at h
    cases h

/-- Tokens without a fault do not go on with a conditional before them. -/
theorem unattached_of_declarations (hp : declarations n s = .ok slots s₂)
    (hfaults : s₂.faults.length = s.faults.length) : Unattached s.rest := by
  cases n with
  | zero => cases hp
  | succ n =>
    cases hrest : s.rest with
    | nil => rfl
    | cons t rest =>
      have hne : s.rest ≠ [] := by simp [hrest]
      obtain ⟨first, s₁, others, h₁, h₂, -⟩ := exists_of_declarations hne hp
      refine Bool.eq_false_iff.mpr fun helse => ?_
      have hkind : t.kind = .symbol .ifElse := by simpa [Token.isSymbol] using helse
      have hlt := recovering_faults_lt ⟨t, rest, hrest, hkind⟩ h₁
      have hle := (declarations_before h₂).faults
      omega

/-- The fuel for a list of tokens is as good as any that is enough. -/
theorem declarations_fuelFor_eq {tokens : List Token} {nodes functions : Nat}
    {faults : List Fault} (h : declarations n ⟨tokens, nodes, functions, faults⟩ = .ok slots s) :
    declarations (fuelFor tokens) ⟨tokens, nodes, functions, faults⟩ = .ok slots s := by
  obtain ⟨slots', s', hread, -⟩ := declarations_fuelFor tokens nodes functions faults
  have hmore := declarations_of_le (Nat.le_max_left (fuelFor tokens) n) hread
  rw [declarations_of_le (Nat.le_max_right (fuelFor tokens) n) h] at hmore
  rw [hread, hmore]

/-- **Two programs without a fault, one after the other, are one program.** -/
theorem declarations_fuelFor_append {tokens tokens' : List Token} {nodes nodes₁ nodes₂ functions
    functions₁ functions₂ : Nat}
    (h : declarations (fuelFor tokens) ⟨tokens, nodes, functions, []⟩ =
      .ok slots ⟨[], nodes₁, functions₁, []⟩)
    (h' : declarations (fuelFor tokens') ⟨tokens', nodes₁, functions₁, []⟩ =
      .ok others ⟨[], nodes₂, functions₂, []⟩) :
    declarations (fuelFor (tokens ++ tokens')) ⟨tokens ++ tokens', nodes, functions, []⟩ =
      .ok (slots ++ others) ⟨[], nodes₂, functions₂, []⟩ :=
  declarations_fuelFor_eq (declarations_append (unattached_of_declarations h' rfl) h rfl h')

end Nya.Parse
