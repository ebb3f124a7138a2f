import Nya.Proofs.Grammar.Statements
import Nya.Proofs.Parse.Reads

/-!
# Programs that are read without a fault

Where no fault is found, the tokens taken for a declaration spell it, and so do the declarations of
every block: none is dropped without a fault. The rules follow the parser, one for each function,
as for expressions.
-/

namespace Nya.Parse

variable {α : Type} {P : α → List Token → Prop}

theorem reads_peek? {k : Option Token → Parser α} {s : State} (hnone : (k none s).Reads s P)
    (hsome : ∀ t, (k (some t) s).Reads s P) : ((peek? >>= k) s).Reads s P :=
  meets_peek? (fun _ => hnone) fun t _ _ => hsome t

/-- What is dropped leaves a fault behind. -/
theorem recovering_reads {p : Parser α} {s : State} (h : (p s).Reads s P) :
    (recovering p s).Reads s fun slot ts => ∃ v, slot = some v ∧ P v ts := by
  refine meets_recovering (h.mono ?_ (fun _ hs => hs) id) ?_
  · rintro v s' ⟨hle, hP⟩
    refine ⟨hle, fun heq => ?_⟩
    obtain ⟨ts, hts, hv⟩ := hP heq
    exact ⟨ts, hts, v, rfl, hv⟩
  · intro s' f hle
    have hlength : (s'.faults ++ [f]).length = s'.faults.length + 1 := List.length_append
    refine ⟨?_, fun heq => ?_⟩
    · show s.faults.length ≤ (s'.faults ++ [f]).length
      omega
    · have heq' : (s'.faults ++ [f]).length = s.faults.length := heq
      omega

/-! ## Parts of statements -/

theorem terminated_reads (n : Nat) (cause : SyntaxCause) (s : State) :
    (terminated n cause s).Reads s Expr.SpelledLine := by
  refine (expression_reads n s).seq ?_
  intro e s₁ us
  refine reads_expect fun stop s₂ hstop => reads_pure ?_
  intro he
  exact ⟨us, stop, rfl, he, hstop⟩

theorem expressionUnless_reads (n : Nat) (stop : Symbol) (s : State) :
    (expressionUnless n stop s).Reads s Expr.SpelledOption := by
  refine reads_nextIs fun b => ?_
  cases b with
  | true => exact reads_pure rfl
  | false =>
    refine (expression_reads n s).seq fun e s₁ us => reads_pure ?_
    intro he
    rwa [List.append_nil]

theorem initialValue_reads (n : Nat) (s : State) :
    (initialValue n s).Reads s Expr.SpelledValue := by
  refine reads_takeIf (reads_pure rfl) ?_
  intro equals s₁ hequals
  refine (expression_reads n s₁).seq fun e s₂ us => reads_pure ?_
  intro he
  exact ⟨equals, us, by rw [List.append_nil], hequals, he⟩

theorem variableDecl_reads (n : Nat) (s : State) :
    (variableDecl n s).Reads s fun stmt ts => ∃ name init, stmt = .var name init ∧
      ∀ start : Token, start.isSymbol .var = true → Stmt.SpelledVar name init (start :: ts) := by
  rw [variableDecl_eq]
  refine reads_expectName fun name s₁ hname => ?_
  refine (initialValue_reads n s₁).seq fun init s₂ us => ?_
  refine reads_expect fun stop s₃ hstop => reads_pure ?_
  intro hinit
  refine ⟨name, init, rfl, fun start hstart => ?_⟩
  exact ⟨start, us, stop, rfl, hstart, hname, hinit, hstop⟩

theorem parameters_reads (n count : Nat) (s : State) :
    (parameters n count s).Reads s fun names ts => ∃ name others, names = name :: others ∧
      Names names ts ∧ count + names.length ≤ maxArguments := by
  induction n generalizing count s with
  | zero => trivial
  | succ n ih =>
    rw [parameters_succ]
    refine (limit_reads count _ s).seq fun _ s₁ ts₀ => ?_
    refine reads_expectName fun first s₂ hfirst => ?_
    refine reads_takeIf (reads_pure ?_) ?_
    · rintro ⟨rfl, hcount⟩
      exact ⟨first, [], rfl, ⟨[], rfl, hfirst, rfl⟩, hcount⟩
    · intro comma s₃ hcomma
      refine (ih (count + 1) s₃).seq fun others s₄ us => reads_pure ?_
      rintro ⟨name, names, rfl, ⟨us', rfl, hname, hafter⟩, hlength⟩ ⟨rfl, -⟩
      refine ⟨first, name :: names, rfl, ?_, ?_⟩
      · refine ⟨comma :: name :: us', ?_, hfirst, comma, us', rfl, hcomma, hname, hafter⟩
        simp
      · rw [List.length_cons]
        omega

theorem parameterList_reads (n : Nat) (s : State) :
    (parameterList n s).Reads s fun names ts =>
      Names names ts ∧ names.length ≤ maxArguments := by
  refine reads_listBefore ⟨rfl, Nat.zero_le _⟩ ((parameters_reads n 0 s).imp ?_)
  rintro names ts ⟨name, others, rfl, hnames, hlength⟩
  exact ⟨hnames, by omega⟩

theorem initializer_reads (n : Nat) (s : State) :
    (initializer n s).Reads s Stmt.SpelledClause := by
  refine reads_takeIf (reads_takeIf ?_ ?_) ?_
  · refine (terminated_reads n _ s).seq fun e s₁ us => reads_pure ?_
    intro he
    rwa [List.append_nil]
  · intro start s₁ hstart
    refine (variableDecl_reads n s₁).seq fun stmt s₂ us => reads_pure ?_
    rintro ⟨name, init, rfl, h⟩
    rw [List.append_nil]
    exact h start hstart
  · intro stop s₁ hstop
    exact reads_pure ⟨stop, rfl, hstop⟩

theorem conditionOr_reads (condition : Option Expr) (s : State) :
    (conditionOr condition s).Reads s fun e ts =>
      ts = [] ∧ ∃ id, e = condition.getD (.literal id (.boolean true)) := by
  cases condition with
  | some e => exact reads_pure ⟨rfl, 0, rfl⟩
  | none => exact reads_newNode fun id s₁ => reads_pure ⟨rfl, id, rfl⟩

/-! ## Statements -/

mutual

theorem declaration_reads : ∀ (n : Nat) (s : State), (declaration n s).Reads s Stmt.Spelled
  | 0, _ => trivial
  | n + 1, s => by
    rw [declaration_succ]
    refine reads_takeIf (reads_takeIf ?_ ?_) ?_
    · exact (statement_reads n s).imp fun _ _ h => h.1
    · intro start s₁ hstart
      refine (variableDecl_reads n s₁).imp ?_
      rintro stmt ts ⟨name, init, rfl, h⟩
      exact .var (h start hstart)
    · intro start s₁ hstart
      exact (functionDecl_reads n s₁).imp fun _ _ h => h start hstart

theorem functionDecl_reads : ∀ (n : Nat) (s : State), (functionDecl n s).Reads s fun stmt ts =>
    ∀ start : Token, start.isSymbol .function = true → stmt.Spelled (start :: ts)
  | 0, _ => trivial
  | n + 1, s => by
    rw [functionDecl_succ]
    refine reads_expectName fun name s₁ hname => ?_
    refine reads_expect fun paren s₂ hparen => ?_
    refine (parameterList_reads n s₂).seq fun params s₃ us => ?_
    refine reads_expect fun close s₄ hclose => ?_
    refine reads_expect fun first s₅ hfirst => ?_
    refine (block_reads n s₅).seq fun body s₆ vs => ?_
    refine reads_newFunction fun id s₇ => reads_pure ?_
    rintro ⟨ws, last, rfl, hbody, hlast⟩ ⟨hparams, hlength⟩ start hstart
    rw [List.append_nil]
    exact .function hstart hname hparen hparams hlength hclose hfirst hbody hlast

theorem statement_reads : ∀ (n : Nat) (s : State), (statement n s).Reads s fun stmt ts =>
    stmt.Spelled ts ∧ stmt.isDeclaration = false
  | 0, _ => trivial
  | n + 1, s => by
    rw [statement_succ]
    refine reads_takeIf ?_ ?_
    · refine (terminated_reads n _ s).seq fun e s₁ us => reads_pure ?_
      intro he
      rw [List.append_nil]
      exact ⟨.expression he, rfl⟩
    · intro t s₁ ht
      -- the statement is of the kind that the symbol of its first token says
      obtain ⟨symbol, hmem, ht⟩ := List.any_eq_true.mp ht
      have hkind := Token.isSymbol_iff.mp ht
      simp only [List.mem_cons, List.not_mem_nil, or_false] at hmem
      rcases hmem with rfl | rfl | rfl | rfl | rfl | rfl <;>
        simp only [statementFrom, Token.symbol?, hkind]
      · refine (forLoop_reads n s₁).imp ?_
        rintro stmt ts ⟨l, id, rfl, hl⟩
        exact ⟨(hl t ht).stmt id, l.isDeclaration_stmt id⟩
      · exact (branch_reads n s₁).imp fun _ _ h => h t ht
      · refine (terminated_reads n _ s₁).seq fun e s₂ us => reads_pure ?_
        intro he
        rw [List.append_nil]
        exact ⟨.print ht he, rfl⟩
      · refine (expressionUnless_reads n _ s₁).seq fun value s₂ us => ?_
        refine reads_expect fun stop s₃ hstop => reads_pure ?_
        intro hvalue
        exact ⟨.ret ht hvalue hstop, rfl⟩
      · exact (whileLoop_reads n s₁).imp fun _ _ h => h t ht
      · refine (block_reads n s₁).seq fun body s₂ us => reads_pure ?_
        rintro ⟨vs, stop, rfl, hbody, hstop⟩
        rw [List.append_nil]
        exact ⟨.block ht hbody hstop, rfl⟩

theorem forLoop_reads : ∀ (n : Nat) (s : State), (forLoop n s).Reads s fun stmt ts =>
    ∃ (l : ForLoop) (id : Nat), stmt = l.stmt id ∧
      ∀ start : Token, start.isSymbol .forLoop = true → l.Spelled (start :: ts)
  | 0, _ => trivial
  | n + 1, s => by
    rw [forLoop_succ]
    refine reads_expect fun paren s₁ hparen => ?_
    refine (initializer_reads n s₁).seq fun init s₂ us => ?_
    refine (expressionUnless_reads n _ s₂).seq fun condition s₃ vs => ?_
    refine reads_expect fun stop s₄ hstop => ?_
    refine (expressionUnless_reads n _ s₄).seq fun increment s₅ ws => ?_
    refine reads_expect fun close s₆ hclose => ?_
    refine (statement_reads n s₆).seq fun body s₇ xs => ?_
    refine (conditionOr_reads condition s₇).seq fun e s₈ ys => reads_pure ?_
    rintro ⟨rfl, id, rfl⟩ ⟨hbody, hstatement⟩ hincrement hcondition hinit
    refine ⟨⟨init, condition, increment, body⟩, id, rfl, fun start hstart => ?_⟩
    simp only [List.append_nil]
    exact .intro hstart hparen hinit hcondition hstop hincrement hclose hbody hstatement

theorem branch_reads : ∀ (n : Nat) (s : State), (branch n s).Reads s fun stmt ts =>
    ∀ start : Token, start.isSymbol .ifThen = true →
      stmt.Spelled (start :: ts) ∧ stmt.isDeclaration = false
  | 0, _ => trivial
  | n + 1, s => by
    rw [branch_succ]
    refine reads_expect fun paren s₁ hparen => ?_
    refine (expression_reads n s₁).seq fun condition s₂ us => ?_
    refine reads_expect fun close s₃ hclose => ?_
    refine (statement_reads n s₃).seq fun thenBranch s₄ vs => ?_
    refine reads_takeIf (reads_pure ?_) ?_
    · rintro ⟨hthen, hstatement⟩ hcondition start hstart
      rw [List.append_nil]
      exact ⟨.branch hstart hparen hcondition hclose hthen hstatement, rfl⟩
    · intro keyword s₅ hkeyword
      refine (statement_reads n s₅).seq fun elseBranch s₆ ws => reads_pure ?_
      rintro ⟨helse, hstatement'⟩ ⟨hthen, hstatement⟩ hcondition start hstart
      rw [List.append_nil]
      exact ⟨.branchElse hstart hparen hcondition hclose hthen hstatement hkeyword helse
        hstatement', rfl⟩

theorem whileLoop_reads : ∀ (n : Nat) (s : State), (whileLoop n s).Reads s fun stmt ts =>
    ∀ start : Token, start.isSymbol .whileLoop = true →
      stmt.Spelled (start :: ts) ∧ stmt.isDeclaration = false
  | 0, _ => trivial
  | n + 1, s => by
    rw [whileLoop_succ]
    refine reads_expect fun paren s₁ hparen => ?_
    refine (expression_reads n s₁).seq fun condition s₂ us => ?_
    refine reads_expect fun close s₃ hclose => ?_
    refine (statement_reads n s₃).seq fun body s₄ vs => reads_pure ?_
    rintro ⟨hbody, hstatement⟩ hcondition start hstart
    rw [List.append_nil]
    exact ⟨.loop hstart hparen hcondition hclose hbody hstatement, rfl⟩

theorem block_reads : ∀ (n : Nat) (s : State), (block n s).Reads s fun body ts =>
    ∃ us stop, ts = us ++ [stop] ∧ Stmt.SpelledAll body us ∧ stop.isSymbol .blockEnd = true
  | 0, _ => trivial
  | n + 1, s => by
    rw [block_succ]
    refine reads_peek? (Nat.le_refl s.faults.length) fun t => ?_
    dsimp only
    split
    · refine reads_expect fun stop s₁ hstop => reads_pure ?_
      exact ⟨[], stop, rfl, .nil, hstop⟩
    · refine (recovering_reads (declaration_reads n s)).seq fun first s₁ us => ?_
      refine (block_reads n s₁).seq fun others s₂ vs => reads_pure ?_
      rintro ⟨ws, stop, rfl, hothers, hstop⟩ ⟨stmt, rfl, hfirst⟩
      exact ⟨us ++ ws, stop, by simp, .cons hfirst hothers, hstop⟩

end

/-- Without a fault every slot is filled, and the declarations in the slots are spelled in full. -/
theorem declarations_reads : ∀ (n : Nat) (s : State), (declarations n s).Reads s fun slots ts =>
    ∃ program : List Stmt, slots = program.map some ∧ Stmt.SpelledAll program ts
  | 0, _ => trivial
  | n + 1, s => by
    rw [declarations_succ]
    refine reads_peek? (reads_pure ⟨[], rfl, .nil⟩) fun t => ?_
    refine (recovering_reads (declaration_reads n s)).seq fun first s₁ us => ?_
    refine (declarations_reads n s₁).seq fun others s₂ vs => reads_pure ?_
    rintro ⟨program, rfl, hothers⟩ ⟨stmt, rfl, hfirst⟩
    refine ⟨stmt :: program, rfl, ?_⟩
    rw [List.append_nil]
    exact .cons hfirst hothers

end Nya.Parse
