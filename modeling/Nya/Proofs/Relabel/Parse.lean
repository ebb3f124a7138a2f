import Nya.Proofs.Relabel.Tree

/-!
# Relabelling what is parsed

A parser looks at kinds and texts of tokens only. If the lines of the tokens change, and the numbers
start elsewhere, it yields the same tree with these changes.

* `Parse.Natural` says so of a parser; `Parse.Natural.bind` puts natural parsers together
* `parse_relabel` for whole programs
-/

namespace Nya

/-- The relabelling moves the starting points of the numbers. -/
structure Relabel.Shifts (ρ : Relabel) : Prop where
  node : ∀ i, ρ.node (i + 1) = ρ.node i + 1
  function : ∀ i, ρ.function (i + 1) = ρ.function i + 1

namespace Parse

/-! ## States and outcomes -/

/-- The fault at its token on the new line. -/
def Fault.relabel (ρ : Relabel) (f : Fault) : Fault := ⟨f.site.map (Token.relabel ρ), f.cause⟩

/-- The state with new lines and starting points. -/
def State.relabel (ρ : Relabel) (s : State) : State :=
  ⟨s.rest.map (Token.relabel ρ), ρ.node s.nodes, ρ.function s.functions,
    s.faults.map (Fault.relabel ρ)⟩

/-- The outcome with new numbers and lines. -/
def Outcome.relabel (ρ : Relabel) {α β : Type} (f : α → β) : Outcome α → Outcome β
  | .ok value next => .ok (f value) (next.relabel ρ)
  | .fault e next => .fault (e.relabel ρ) (next.relabel ρ)
  | .exhausted => .exhausted

/-- The second parser does on relabelled states what the first one does, relabelled. -/
def Natural (ρ : Relabel) {α β : Type} (f : α → β) (p : Parser α) (q : Parser β) : Prop :=
  ∀ s : State, q (s.relabel ρ) = (p s).relabel ρ f

namespace Natural

variable {ρ : Relabel} {α β γ δ : Type} {f : α → β} {g : γ → δ}

/-- A value is relabelled as it is returned. -/
theorem pure {v : α} {v' : β} (h : v' = f v) :
    Natural ρ f (Pure.pure v : Parser α) (Pure.pure v') := by
  subst h
  exact fun _ => rfl

/-- A relabelling goes through a sequence of parsers if it goes through each. -/
theorem bind {p : Parser α} {q : Parser β} {k : α → Parser γ} {k' : β → Parser δ}
    (h : Natural ρ f p q) (hk : ∀ v, Natural ρ g (k v) (k' (f v))) :
    Natural ρ g (p >>= k) (q >>= k') := by
  intro s
  rw [bind_apply, bind_apply, h s]
  cases p s with
  | ok v s' => exact hk v s'
  | fault e s' => rfl
  | exhausted => rfl

theorem outOfFuel : Natural ρ f outOfFuel outOfFuel := fun _ => rfl

theorem fail (cause : SyntaxCause) : Natural ρ f (fail cause) (fail cause) := by
  intro s
  simp [Parse.fail, Outcome.relabel, Fault.relabel, State.relabel]

end Natural

section

variable {ρ : Relabel} {γ δ : Type} {g : γ → δ}

/-- A fault is reported at its token, on the new line. -/
theorem report_natural (e : Fault) : Natural ρ id (report e) (report (e.relabel ρ)) := by
  intro s
  simp [report, Outcome.relabel, State.relabel]

/-- The count that a limit looks at is none of those that are relabelled. -/
theorem limit_natural (count : Nat) (cause : SyntaxCause) :
    Natural ρ id (limit count cause) (limit count cause) := by
  rw [limit_eq]
  split
  · intro s
    simp [reportHere, report, Outcome.relabel, State.relabel, Fault.relabel]
  · exact .pure rfl

/-- The next number becomes the next one, since a shift keeps numbers next to each other. -/
theorem newNode_natural (hρ : ρ.Shifts) : Natural ρ ρ.node newNode newNode := by
  intro s
  simp [newNode, Outcome.relabel, State.relabel, hρ.node]

theorem newFunction_natural (hρ : ρ.Shifts) :
    Natural ρ ρ.function newFunction newFunction := by
  intro s
  simp [newFunction, Outcome.relabel, State.relabel, hρ.function]

theorem nextIs_natural (symbol : Symbol) : Natural ρ id (nextIs symbol) (nextIs symbol) := by
  intro s
  cases hs : s.rest <;> simp [nextIs_apply, Outcome.relabel, State.relabel, hs]

/-- A list is empty or read alike, by the symbol behind it. -/
theorem listBefore_natural {f : List γ → List δ} {items : Parser (List γ)}
    {items' : Parser (List δ)} (hnil : [] = f []) (h : Natural ρ f items items') (stop : Symbol) :
    Natural ρ f (Parsing.listBefore stop items) (Parsing.listBefore stop items') := by
  refine (nextIs_natural stop).bind ?_
  intro b
  cases b with
  | true => exact .pure hnil
  | false => exact h

/-- The next token is the same, on its new line. -/
theorem peek?_natural : Natural ρ (Option.map (Token.relabel ρ)) peek? peek? := by
  intro s
  simp [peek?, Outcome.relabel, State.relabel]

/-- A test that does not look at the line of a token. -/
theorem takeIf_natural {test : Token → Bool} (h : ∀ t, test (t.relabel ρ) = test t) :
    Natural ρ (Option.map (Token.relabel ρ)) (takeIf test) (takeIf test) := by
  intro s
  cases hs : s.rest with
  | nil => simp [takeIf, Outcome.relabel, State.relabel, hs]
  | cons t rest =>
    cases ht : test t <;> simp [takeIf, Outcome.relabel, State.relabel, hs, h, ht]

theorem take?_natural (symbol : Symbol) :
    Natural ρ (Option.map (Token.relabel ρ)) (take? symbol) (take? symbol) :=
  takeIf_natural fun _ => rfl

theorem takeAny?_natural (symbols : List Symbol) :
    Natural ρ (Option.map (Token.relabel ρ)) (takeAny? symbols) (takeAny? symbols) :=
  takeIf_natural fun _ => rfl

/-- A token is expected by its symbol, whatever its line. -/
theorem expect_natural (symbol : Symbol) (cause : SyntaxCause) :
    Natural ρ (Token.relabel ρ) (expect symbol cause) (expect symbol cause) := by
  refine (take?_natural symbol).bind ?_
  intro found
  cases found with
  | none => exact .fail cause
  | some t => exact .pure rfl

/-- A name is expected by its kind, whatever its line. -/
theorem expectName_natural (cause : SyntaxCause) :
    Natural ρ (Token.relabel ρ) (expectName cause) (expectName cause) := by
  refine (takeIf_natural fun _ => rfl).bind ?_
  intro found
  cases found with
  | none => exact .fail cause
  | some t => exact .pure rfl

/-- What a level makes of relabelled operands is what it makes of them, relabelled. -/
theorem Level.node_relabel (l : Level) (id : Nat) (left : Expr) (operator : Token) (right : Expr) :
    l.node (ρ.node id) (left.relabel ρ) (operator.relabel ρ) (right.relabel ρ) =
      (l.node id left operator right).relabel ρ := by
  unfold Level.node
  split <;> rw [Expr.relabel]

end

/-! ## Expressions -/

section

variable {ρ : Relabel}

mutual

/-- An expression is read alike, with new numbers and lines. -/
theorem expression_natural (hρ : ρ.Shifts) : ∀ n : Nat,
    Natural ρ (Expr.relabel ρ) (expression n) (expression n)
  | 0 => .outOfFuel
  | n + 1 => by
    rw [expression_succ]
    refine (level_natural hρ n levels).bind ?_
    intro left
    refine (take?_natural .equal).bind ?_
    intro equals
    cases equals with
    | none => exact .pure rfl
    | some equals =>
      refine (expression_natural hρ n).bind ?_
      intro value
      cases left with
      | read target =>
        refine (newNode_natural hρ).bind ?_
        intro id
        exact .pure rfl
      | _ =>
        refine (report_natural ⟨some equals, .assignmentTarget⟩).bind ?_
        intro _
        exact .pure rfl

theorem level_natural (hρ : ρ.Shifts) : ∀ (n : Nat) (ls : List Level),
    Natural ρ (Expr.relabel ρ) (level n ls) (level n ls)
  | 0, _ => .outOfFuel
  | n + 1, [] => unary_natural hρ n
  | n + 1, l :: tighter => by
    rw [level_cons]
    refine (level_natural hρ n tighter).bind ?_
    intro left
    exact chain_natural hρ n l tighter left

/-- A chain goes on from a relabelled operand as it does from the operand. -/
theorem chain_natural (hρ : ρ.Shifts) :
    ∀ (n : Nat) (l : Level) (tighter : List Level) (left : Expr),
    Natural ρ (Expr.relabel ρ) (chain n l tighter left) (chain n l tighter (left.relabel ρ))
  | 0, _, _, _ => .outOfFuel
  | n + 1, l, tighter, left => by
    rw [chain_succ, chain_succ]
    refine (takeAny?_natural l.symbols).bind ?_
    intro operator
    cases operator with
    | none => exact .pure rfl
    | some operator =>
      refine (level_natural hρ n tighter).bind ?_
      intro right
      refine (newNode_natural hρ).bind ?_
      intro id
      rw [Level.node_relabel]
      exact chain_natural hρ n l tighter _

theorem unary_natural (hρ : ρ.Shifts) : ∀ n : Nat, Natural ρ (Expr.relabel ρ) (unary n) (unary n)
  | 0 => .outOfFuel
  | n + 1 => by
    rw [unary_succ]
    refine (takeAny?_natural [.bang, .minus]).bind ?_
    intro operator
    cases operator with
    | none =>
      refine (primary_natural hρ n).bind ?_
      intro callee
      exact calls_natural hρ n callee
    | some operator =>
      refine (unary_natural hρ n).bind ?_
      intro right
      refine (newNode_natural hρ).bind ?_
      intro id
      exact .pure rfl

/-- Calls go on from a relabelled callee as they do from the callee. -/
theorem calls_natural (hρ : ρ.Shifts) : ∀ (n : Nat) (callee : Expr),
    Natural ρ (Expr.relabel ρ) (calls n callee) (calls n (callee.relabel ρ))
  | 0, _ => .outOfFuel
  | n + 1, callee => by
    rw [calls_succ, calls_succ]
    refine (take?_natural .leftParen).bind ?_
    intro paren
    cases paren with
    | none => exact .pure rfl
    | some paren =>
      refine (listBefore_natural rfl (arguments_natural hρ n 0) .rightParen).bind ?_
      intro args
      refine (expect_natural .rightParen .argumentsEnd).bind ?_
      intro close
      refine (newNode_natural hρ).bind ?_
      intro id
      exact calls_natural hρ n (.call id callee args close)

theorem arguments_natural (hρ : ρ.Shifts) : ∀ n count : Nat,
    Natural ρ (Expr.relabelAll ρ) (arguments n count) (arguments n count)
  | 0, _ => .outOfFuel
  | n + 1, count => by
    rw [arguments_succ]
    refine (limit_natural count .tooManyArguments).bind ?_
    intro _
    refine (expression_natural hρ n).bind ?_
    intro first
    refine (take?_natural .comma).bind ?_
    intro comma
    cases comma with
    | none => exact .pure rfl
    | some comma =>
      refine (arguments_natural hρ n (count + 1)).bind ?_
      intro others
      exact .pure rfl

/-- What starts a primary is told by its kind, and its number is the next one. -/
theorem primary_natural (hρ : ρ.Shifts) : ∀ n : Nat,
    Natural ρ (Expr.relabel ρ) (primary n) (primary n)
  | 0 => .outOfFuel
  | n + 1 => by
    rw [primary_succ]
    refine (takeIf_natural fun _ => rfl).bind ?_
    intro literal
    cases literal with
    | some t =>
      refine (newNode_natural hρ).bind ?_
      intro id
      exact .pure rfl
    | none =>
      refine (takeIf_natural fun _ => rfl).bind ?_
      intro name
      cases name with
      | some name =>
        refine (newNode_natural hρ).bind ?_
        intro id
        exact .pure rfl
      | none =>
        refine (take?_natural .leftParen).bind ?_
        intro paren
        cases paren with
        | none => exact .fail .expression
        | some paren =>
          refine (expression_natural hρ n).bind ?_
          intro inner
          refine (expect_natural .rightParen .groupEnd).bind ?_
          intro close
          refine (newNode_natural hρ).bind ?_
          intro id
          exact .pure rfl

end

/-! ## Statements -/

theorem terminated_natural (hρ : ρ.Shifts) (n : Nat) (cause : SyntaxCause) :
    Natural ρ (Expr.relabel ρ) (terminated n cause) (terminated n cause) := by
  refine (expression_natural hρ n).bind ?_
  intro e
  refine (expect_natural .semicolon cause).bind ?_
  intro _
  exact .pure rfl

theorem expressionUnless_natural (hρ : ρ.Shifts) (n : Nat) (stop : Symbol) :
    Natural ρ (Option.map (Expr.relabel ρ)) (expressionUnless n stop)
      (expressionUnless n stop) := by
  refine (nextIs_natural stop).bind ?_
  intro b
  cases b with
  | true => exact .pure rfl
  | false =>
    refine (expression_natural hρ n).bind ?_
    intro e
    exact .pure rfl

theorem initialValue_natural (hρ : ρ.Shifts) (n : Nat) :
    Natural ρ (Option.map (Expr.relabel ρ)) (initialValue n) (initialValue n) := by
  refine (take?_natural .equal).bind ?_
  intro equals
  cases equals with
  | none => exact .pure rfl
  | some equals =>
    refine (expression_natural hρ n).bind ?_
    intro e
    exact .pure rfl

theorem variableDecl_natural (hρ : ρ.Shifts) (n : Nat) :
    Natural ρ (Stmt.relabel ρ) (variableDecl n) (variableDecl n) := by
  rw [variableDecl_eq]
  refine (expectName_natural .variableName).bind ?_
  intro name
  refine (initialValue_natural hρ n).bind ?_
  intro init
  refine (expect_natural .semicolon .variableEnd).bind ?_
  intro _
  exact .pure (by rw [Stmt.relabel])

theorem parameters_natural : ∀ n count : Nat,
    Natural ρ (List.map (Token.relabel ρ)) (parameters n count) (parameters n count)
  | 0, _ => .outOfFuel
  | n + 1, count => by
    rw [parameters_succ]
    refine (limit_natural count .tooManyParameters).bind ?_
    intro _
    refine (expectName_natural .parameterName).bind ?_
    intro first
    refine (take?_natural .comma).bind ?_
    intro comma
    cases comma with
    | none => exact .pure rfl
    | some comma =>
      refine (parameters_natural n (count + 1)).bind ?_
      intro others
      exact .pure rfl

theorem initializer_natural (hρ : ρ.Shifts) (n : Nat) :
    Natural ρ (Option.map (Stmt.relabel ρ)) (initializer n) (initializer n) := by
  refine (take?_natural .semicolon).bind ?_
  intro semicolon
  cases semicolon with
  | some _ => exact .pure rfl
  | none =>
    refine (take?_natural .var).bind ?_
    intro var
    cases var with
    | some _ =>
      refine (variableDecl_natural hρ n).bind ?_
      intro s
      exact .pure rfl
    | none =>
      refine (terminated_natural hρ n .expressionEnd).bind ?_
      intro e
      exact .pure rfl

/-- A condition that is left out is a literal with the next number. -/
theorem conditionOr_natural (hρ : ρ.Shifts) (condition : Option Expr) :
    Natural ρ (Expr.relabel ρ) (conditionOr condition)
      (conditionOr (condition.map (Expr.relabel ρ))) := by
  cases condition with
  | some e => exact .pure rfl
  | none =>
    refine (newNode_natural hρ).bind ?_
    intro id
    exact .pure rfl

/-- What a loop is read as depends on no number. -/
theorem withIncrement_relabel (body : Stmt) (increment : Option Expr) :
    withIncrement (body.relabel ρ) (increment.map (Expr.relabel ρ)) =
      (withIncrement body increment).relabel ρ := by
  cases increment <;> simp [withIncrement, Stmt.relabel, Stmt.relabelAll]

theorem withInitializer_relabel (loop : Stmt) (init : Option Stmt) :
    withInitializer (loop.relabel ρ) (init.map (Stmt.relabel ρ)) =
      (withInitializer loop init).relabel ρ := by
  cases init <;> simp [withInitializer, Stmt.relabel, Stmt.relabelAll]

/-- Where the parser goes on after a fault is told by symbols alone. -/
theorem skip_relabel : ∀ (last : Token) (ts : List Token),
    skip (last.relabel ρ) (ts.map (Token.relabel ρ)) = (skip last ts).map (Token.relabel ρ)
  | _, [] => rfl
  | last, t :: ts => by
    have hstop : ((last.relabel ρ).isSymbol .semicolon || starters.any (t.relabel ρ).isSymbol) =
        (last.isSymbol .semicolon || starters.any t.isSymbol) := rfl
    rw [List.map_cons, skip, skip, hstop, skip_relabel t ts]
    cases last.isSymbol .semicolon || starters.any t.isSymbol <;> rfl

theorem recover_relabel (ts : List Token) :
    recover (ts.map (Token.relabel ρ)) = (recover ts).map (Token.relabel ρ) := by
  cases ts with
  | nil => rfl
  | cons t ts => exact skip_relabel t ts

/-- Recovery drops the same tokens, whatever lines they are on. -/
theorem recovering_natural {α β : Type} {f : α → β} {p : Parser α} {q : Parser β}
    (h : Natural ρ f p q) : Natural ρ (Option.map f) (recovering p) (recovering q) := by
  intro s
  rw [recovering, recovering, h s]
  cases p s with
  | ok v s' => rfl
  | fault e s' => simp [Outcome.relabel, State.relabel, recover_relabel]
  | exhausted => rfl

mutual

theorem declaration_natural (hρ : ρ.Shifts) : ∀ n : Nat,
    Natural ρ (Stmt.relabel ρ) (declaration n) (declaration n)
  | 0 => .outOfFuel
  | n + 1 => by
    rw [declaration_succ]
    refine (take?_natural .function).bind ?_
    intro function
    cases function with
    | some _ => exact functionDecl_natural hρ n
    | none =>
      refine (take?_natural .var).bind ?_
      intro var
      cases var with
      | some _ => exact variableDecl_natural hρ n
      | none => exact statement_natural hρ n

/-- A function gets the next of the numbers for functions, relabelled. -/
theorem functionDecl_natural (hρ : ρ.Shifts) : ∀ n : Nat,
    Natural ρ (Stmt.relabel ρ) (functionDecl n) (functionDecl n)
  | 0 => .outOfFuel
  | n + 1 => by
    rw [functionDecl_succ]
    refine (expectName_natural .functionName).bind ?_
    intro name
    refine (expect_natural .leftParen .functionParen).bind ?_
    intro _
    refine (listBefore_natural rfl (parameters_natural n 0) .rightParen).bind ?_
    intro params
    refine (expect_natural .rightParen .parametersEnd).bind ?_
    intro _
    refine (expect_natural .blockStart .functionBody).bind ?_
    intro _
    refine (block_natural hρ n).bind ?_
    intro body
    refine (newFunction_natural hρ).bind ?_
    intro id
    exact .pure rfl

theorem statement_natural (hρ : ρ.Shifts) : ∀ n : Nat,
    Natural ρ (Stmt.relabel ρ) (statement n) (statement n)
  | 0 => .outOfFuel
  | n + 1 => by
    rw [statement_succ]
    refine (takeAny?_natural _).bind ?_
    intro t
    cases t with
    | none =>
      refine (terminated_natural hρ n .expressionEnd).bind ?_
      intro e
      exact .pure rfl
    | some t =>
      -- the statement is told from its first token by the symbol of that
      show Natural ρ _ (statementFrom n t) (statementFrom n (t.relabel ρ))
      unfold statementFrom
      rw [Token.symbol?_relabel]
      split
      · exact forLoop_natural hρ n
      · exact branch_natural hρ n
      · refine (terminated_natural hρ n .printEnd).bind ?_
        intro e
        exact .pure rfl
      · refine (expressionUnless_natural hρ n .semicolon).bind ?_
        intro value
        refine (expect_natural .semicolon .returnEnd).bind ?_
        intro _
        exact .pure (by rw [Stmt.relabel])
      · exact whileLoop_natural hρ n
      · refine (block_natural hρ n).bind ?_
        intro body
        exact .pure rfl

/-- A `^o^` loop is read alike, and its parts are put together alike. -/
theorem forLoop_natural (hρ : ρ.Shifts) : ∀ n : Nat,
    Natural ρ (Stmt.relabel ρ) (forLoop n) (forLoop n)
  | 0 => .outOfFuel
  | n + 1 => by
    rw [forLoop_succ]
    refine (expect_natural .leftParen .forParen).bind ?_
    intro _
    refine (initializer_natural hρ n).bind ?_
    intro init
    refine (expressionUnless_natural hρ n .semicolon).bind ?_
    intro condition
    refine (expect_natural .semicolon .forCondition).bind ?_
    intro _
    refine (expressionUnless_natural hρ n .rightParen).bind ?_
    intro increment
    refine (expect_natural .rightParen .forClauses).bind ?_
    intro _
    refine (statement_natural hρ n).bind ?_
    intro body
    refine (conditionOr_natural hρ condition).bind ?_
    intro test
    refine .pure ?_
    rw [← withInitializer_relabel, Stmt.relabel, withIncrement_relabel]

theorem branch_natural (hρ : ρ.Shifts) : ∀ n : Nat,
    Natural ρ (Stmt.relabel ρ) (branch n) (branch n)
  | 0 => .outOfFuel
  | n + 1 => by
    rw [branch_succ]
    refine (expect_natural .leftParen .ifParen).bind ?_
    intro _
    refine (expression_natural hρ n).bind ?_
    intro condition
    refine (expect_natural .rightParen .ifCondition).bind ?_
    intro _
    refine (statement_natural hρ n).bind ?_
    intro thenBranch
    refine (take?_natural .ifElse).bind ?_
    intro ifElse
    cases ifElse with
    | none => exact .pure rfl
    | some _ =>
      refine (statement_natural hρ n).bind ?_
      intro elseBranch
      exact .pure rfl

theorem whileLoop_natural (hρ : ρ.Shifts) : ∀ n : Nat,
    Natural ρ (Stmt.relabel ρ) (whileLoop n) (whileLoop n)
  | 0 => .outOfFuel
  | n + 1 => by
    rw [whileLoop_succ]
    refine (expect_natural .leftParen .whileParen).bind ?_
    intro _
    refine (expression_natural hρ n).bind ?_
    intro condition
    refine (expect_natural .rightParen .whileCondition).bind ?_
    intro _
    refine (statement_natural hρ n).bind ?_
    intro body
    exact .pure rfl

/-- The statements of a block are read alike up to the brace. -/
theorem block_natural (hρ : ρ.Shifts) : ∀ n : Nat,
    Natural ρ (Stmt.relabelAll ρ) (block n) (block n)
  | 0 => .outOfFuel
  | n + 1 => by
    rw [block_succ]
    refine peek?_natural.bind ?_
    intro next
    cases next with
    | none => exact .fail .blockEnd
    | some t =>
      have hsame : (t.relabel ρ).isSymbol .blockEnd = t.isSymbol .blockEnd := rfl
      simp only [Option.map_some]
      by_cases ht : t.isSymbol .blockEnd = true
      · rw [if_pos ht, if_pos (hsame.trans ht)]
        refine (expect_natural .blockEnd .blockEnd).bind ?_
        intro _
        exact .pure rfl
      · rw [if_neg ht, if_neg (hsame ▸ ht)]
        refine (recovering_natural (declaration_natural hρ n)).bind ?_
        intro first
        refine (block_natural hρ n).bind ?_
        intro others
        refine .pure ?_
        cases first <;> rfl

end

/-! ## Programs -/

/-- All declarations of a source are read alike, those with faults included. -/
theorem declarations_natural (hρ : ρ.Shifts) : ∀ n : Nat,
    Natural ρ (List.map (Option.map (Stmt.relabel ρ))) (declarations n) (declarations n)
  | 0 => .outOfFuel
  | n + 1 => by
    rw [declarations_succ]
    refine peek?_natural.bind ?_
    intro next
    cases next with
    | none => exact .pure rfl
    | some t =>
      refine (recovering_natural (declaration_natural hρ n)).bind ?_
      intro first
      refine (declarations_natural hρ n).bind ?_
      intro others
      exact .pure rfl

end

end Parse

/-- The fault at its token on the new line. -/
def SyntaxError.relabel (ρ : Relabel) (e : SyntaxError) : SyntaxError :=
  ⟨e.token.relabel ρ, e.cause⟩

/-- What parsing yields, with new numbers and lines. -/
def Parsed.relabel (ρ : Relabel) (p : Parsed) : Parsed :=
  ⟨p.statements.map (Option.map (Stmt.relabel ρ)), p.errors.map (SyntaxError.relabel ρ),
    ρ.node p.nodes, ρ.function p.functions⟩

/-- The end is told by its kind, so that tokens are split alike. -/
theorem splitAtEnd_relabel (ρ : Relabel) : ∀ {tokens : List Token},
    (∃ t ∈ tokens, t.isEof = true) →
    splitAtEnd (tokens.map (Token.relabel ρ)) =
      ((splitAtEnd tokens).1.map (Token.relabel ρ), (splitAtEnd tokens).2.relabel ρ)
  | [], h => by
    obtain ⟨t, ht, -⟩ := h
    cases ht
  | t :: ts, h => by
    rw [List.map_cons, splitAtEnd, splitAtEnd, Token.isEof_relabel]
    by_cases ht : t.isEof = true
    · simp [ht]
    · have hts : ∃ t ∈ ts, t.isEof = true := by
        obtain ⟨u, hu, heof⟩ := h
        rcases List.mem_cons.mp hu with rfl | hu
        · exact absurd heof ht
        · exact ⟨u, hu, heof⟩
      simp [ht, splitAtEnd_relabel ρ hts]

/-- A fault at the end is located at the end, on its new line. -/
theorem Parse.Fault.locate_relabel (ρ : Relabel) (stop : Token) (f : Parse.Fault) :
    (f.relabel ρ).locate (stop.relabel ρ) = (f.locate stop).relabel ρ := by
  obtain ⟨site, cause⟩ := f
  cases site <;> rfl

/-- **Parsing commutes with relabelling.** -/
theorem parse_relabel {ρ : Relabel} (hρ : ρ.Shifts) {tokens : List Token}
    (h : ∃ t ∈ tokens, t.isEof = true) (nodes functions : Nat) :
    parse (tokens.map (Token.relabel ρ)) (ρ.node nodes) (ρ.function functions) =
      (parse tokens nodes functions).relabel ρ := by
  have hnat := Parse.declarations_natural hρ (Parse.fuelFor (splitAtEnd tokens).1)
    ⟨(splitAtEnd tokens).1, nodes, functions, []⟩
  have hfuel : Parse.fuelFor ((splitAtEnd tokens).1.map (Token.relabel ρ)) =
      Parse.fuelFor (splitAtEnd tokens).1 := by
    rw [Parse.fuelFor, Parse.fuelFor, List.length_map]
  have hlocate : ∀ faults : List Parse.Fault,
      (faults.map (Parse.Fault.relabel ρ)).map
          (Parse.Fault.locate ((splitAtEnd tokens).2.relabel ρ)) =
        (faults.map (Parse.Fault.locate (splitAtEnd tokens).2)).map (SyntaxError.relabel ρ) := by
    intro faults
    rw [List.map_map, List.map_map]
    exact List.map_congr_left (fun f _ => f.locate_relabel ρ _)
  simp only [Parse.State.relabel, List.map_nil] at hnat
  simp only [parse, splitAtEnd_relabel ρ h, hfuel, hnat]
  cases Parse.declarations (Parse.fuelFor (splitAtEnd tokens).1)
      ⟨(splitAtEnd tokens).1, nodes, functions, []⟩ with
  | ok statements s =>
    simp only [Parse.Outcome.relabel, Parse.State.relabel, Parsed.relabel, hlocate]
  | fault f s =>
    simp only [Parse.Outcome.relabel, Parse.State.relabel, Parsed.relabel,
      Parse.Fault.locate_relabel]
    rfl
  | exhausted => rfl

/-! ## Readings -/

/-- The relabelling that moves the starting points and leaves the lines. -/
def Relabel.shift (nodes functions : Nat) : Relabel := ⟨(nodes + ·), (functions + ·), id⟩

/-- A shift moves all numbers by as much. -/
theorem Relabel.shift_shifts (nodes functions : Nat) : (Relabel.shift nodes functions).Shifts :=
  ⟨fun _ => rfl, fun _ => rfl⟩

/-- Tokens are parsed in the same way wherever the numbers start. -/
theorem parse_shift {tokens : List Token} (h : ∃ t ∈ tokens, t.isEof = true)
    (nodes functions : Nat) :
    parse tokens nodes functions = (parse tokens 0 0).relabel (.shift nodes functions) := by
  have hparse := parse_relabel (Relabel.shift_shifts nodes functions) h 0 0
  have htokens : tokens.map (Token.relabel (.shift nodes functions)) = tokens := List.map_id' _
  rw [htokens] at hparse
  exact hparse

theorem scannedTokens_append (items items' : List ScanItem) :
    scannedTokens (items ++ items') = scannedTokens items ++ scannedTokens items' :=
  List.filterMap_append

/-- Every source is scanned to an end. -/
theorem exists_eof_scan (source : String) : ∃ t ∈ scannedTokens (scan source), t.isEof = true := by
  refine ⟨⟨.eof, "", 1 + newlines (dropMark source.toList)⟩, ?_, rfl⟩
  rw [scan, scannedTokens_append]
  exact List.mem_append_right _ (List.mem_singleton.mpr rfl)

namespace Reading

/-- A text reads the same wherever the numbers start. -/
theorem parsed_ofSource (source : String) (nodes functions : Nat) :
    (ofSource source nodes functions).parsed =
      (ofSource source 0 0).parsed.relabel (.shift nodes functions) :=
  parse_shift (exists_eof_scan source) nodes functions

/-- A program that is read with other first numbers is the same program, shifted. -/
theorem program_ofSource (source : String) (nodes functions : Nat) :
    (ofSource source nodes functions).program =
      Stmt.relabelAll (.shift nodes functions) (ofSource source 0 0).program := by
  rw [program, program, parsed_ofSource, Stmt.relabelAll_eq_map, List.map_filterMap]
  simp only [Parsed.relabel, List.filterMap_map]
  rfl

/-- Diagnostics do not show from which numbers a source was read. -/
theorem diagnostics_ofSource (source : String) (nodes functions : Nat) :
    (ofSource source nodes functions).diagnostics = (ofSource source 0 0).diagnostics := by
  have herrors : (ofSource source nodes functions).parsed.errors =
      (ofSource source 0 0).parsed.errors := by
    rw [parsed_ofSource]
    exact List.map_id' _
  exact congrArg (fun errors : List SyntaxError =>
    (scanErrors (scan source)).map Diagnostic.scan ++ errors.map Diagnostic.parse) herrors

/-- Whether a source is accepted does not depend on the first numbers. -/
theorem check_ofSource (source : String) (nodes functions : Nat) :
    (ofSource source nodes functions).check =
      (ofSource source 0 0).check.map (Stmt.relabelAll (.shift nodes functions)) := by
  have hscope : scopeErrors (ofSource source nodes functions).program =
      scopeErrors (ofSource source 0 0).program := by
    rw [program_ofSource source nodes functions, scopeErrors_relabelAll]
    exact List.map_id' _
  have hresolve : resolve (ofSource source nodes functions).program =
      Stmt.relabelAll (.shift nodes functions) (resolve (ofSource source 0 0).program) := by
    rw [program_ofSource source nodes functions, resolve_relabelAll]
  unfold check
  rw [diagnostics_ofSource source nodes functions, hscope, hresolve]
  cases (ofSource source 0 0).diagnostics.isEmpty with
  | false => rfl
  | true =>
    cases hempty : (scopeErrors (ofSource source 0 0).program).isEmpty <;>
      (simp only [hempty]; rfl)

end Reading

end Nya
