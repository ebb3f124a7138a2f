import Nya.Proofs.Parse.Builder

/-!
# The grammar builds in order

Clause by clause, the grammar of builders keeps the arena in order. The induction is on the fuel,
over all clauses that call each other at once. Two clauses do more than pass their roots on: the
node of a variable that is assigned to is dropped for that of the assignment, and a `^o^` loop puts
its parts into another order.

* `grows_declarations` for programs
* `Builder.parse_fst` and `Builder.parse_snd` for the two results of a whole parse
-/

namespace Nya.Parse

/-! ## Expressions -/

/-- The operators of a level are those of its kind. -/
def Level.Apt (l : Level) : Prop :=
  ∀ s ∈ l.symbols, s ∈ if l.isLogical then logicalSymbols else binarySymbols

/-- No level mixes logical operators with others. -/
theorem levels_apt : ∀ l ∈ levels, l.Apt := by
  simp [levels, Level.Apt, logicalSymbols, binarySymbols]

theorem isOneOf_of_any {t : Token} {symbols : List Symbol} (h : symbols.any t.isSymbol = true) :
    t.IsOneOf symbols := by
  obtain ⟨s, hs, ht⟩ := List.any_eq_true.mp h
  have hkind : t.kind = .symbol s := by simpa [Token.isSymbol] using ht
  exact ⟨s, hs, by rw [Token.symbol?, hkind]⟩

/-- An operator of a level makes a node that there may be in an arena. -/
theorem Level.apt_node {l : Level} (hl : l.Apt) {operator : Token}
    (hoperator : operator.IsOneOf l.symbols) (left right : Expr) (id : Nat) :
    (l.node id left operator right).node.Apt := by
  obtain ⟨s, hs, hsymbol⟩ := hoperator
  have hmem := hl s hs
  unfold Level.node
  split
  · next hlogical =>
    rw [if_pos hlogical] at hmem
    exact ⟨s, hmem, hsymbol⟩
  · next hlogical =>
    rw [if_neg hlogical] at hmem
    exact ⟨s, hmem, hsymbol⟩

theorem Level.id_node (l : Level) (left : Expr) (operator : Token) (right : Expr) (id : Nat) :
    (l.node id left operator right).id = id := by
  unfold Level.node
  split <;> rfl

theorem Level.parts_node (l : Level) (left : Expr) (operator : Token) (right : Expr) (id : Nat) :
    (l.node id left operator right).parts = [left, right] := by
  unfold Level.node
  split <;> rfl

/-- With the given fuel, the builders for expressions keep the arena in order. -/
structure ExpressionsGrow (n : Nat) : Prop where
  expression : Grows [] (fun e => [e]) (Parsing.expression n)
  level : ∀ ls, (∀ l ∈ ls, l.Apt) → Grows [] (fun e => [e]) (Parsing.level n ls)
  chain : ∀ l tighter left, l.Apt → (∀ l ∈ tighter, l.Apt) →
    Grows [left] (fun e => [e]) (Parsing.chain n l tighter left)
  unary : Grows [] (fun e => [e]) (Parsing.unary n)
  calls : ∀ callee, Grows [callee] (fun e => [e]) (Parsing.calls n callee)
  arguments : ∀ count, Grows [] (fun es => es) (Parsing.arguments n count)
  primary : Grows [] (fun e => [e]) (Parsing.primary n)

namespace ExpressionsGrow

variable {n : Nat} (ih : ExpressionsGrow n)
include ih

/-- An assignment drops the node of its target for its own. -/
theorem expression_succ :
    Grows [] (fun e => [e]) (Parsing.expression (n + 1)) := by
  rw [Parsing.expression]
  refine (ih.level levels levels_apt).next fun left => ?_
  refine (silent_takeIf _).grows fun found _ => ?_
  cases found with
  | none => exact grows_pure left (by simp)
  | some equals =>
    refine ih.expression.next fun value => ?_
    -- The node of a variable that is assigned to is dropped.
    cases left with
    | read target =>
      refine Grows.of_subperm (grows_build (fun id => .assign { target with id } value)
        (fun _ => rfl) (fun _ => rfl) fun _ => trivial) ?_
      exact (List.sublist_append_left [value] _).subperm
    | _ =>
      refine (silent_report _ _).grows fun _ _ => grows_pure _ ?_
      exact (List.sublist_append_right [value] _).subperm

/-- A level starts with an operand of the next tighter one. -/
theorem level_succ : ∀ ls, (∀ l ∈ ls, l.Apt) →
    Grows [] (fun e => [e]) (Parsing.level (n + 1) ls) := by
  intro ls hls
  cases ls with
  | nil => exact ih.unary
  | cons l tighter =>
    rw [List.forall_mem_cons] at hls
    rw [Parsing.level]
    exact (ih.level tighter hls.2).next fun left =>
      ih.chain l tighter left hls.1 hls.2

/-- Each operator of a chain puts its node behind those of both operands. -/
theorem chain_succ : ∀ l tighter left, l.Apt → (∀ l ∈ tighter, l.Apt) →
    Grows [left] (fun e => [e]) (Parsing.chain (n + 1) l tighter left) := by
  intro l tighter left hl htighter
  rw [Parsing.chain]
  refine (silent_takeIf _).grows fun found hfound => ?_
  cases found with
  | none => exact grows_pure left (.refl _)
  | some operator =>
    have hoperator : operator.IsOneOf l.symbols := isOneOf_of_any (hfound operator rfl)
    refine (ih.level tighter htighter).next fun right => ?_
    have hbuild := grows_build (fun id => l.node id left operator right)
      (l.id_node left operator right) (l.parts_node left operator right)
      (Level.apt_node hl hoperator left right)
    refine hbuild.bind [] (List.Perm.swap ..).subperm fun joined => ?_
    exact ih.chain l tighter joined hl htighter

theorem unary_succ :
    Grows [] (fun e => [e]) (Parsing.unary (n + 1)) := by
  rw [Parsing.unary]
  refine (silent_takeIf _).grows fun found hfound => ?_
  cases found with
  | some operator =>
    have hoperator : operator.IsOneOf unarySymbols := isOneOf_of_any (hfound operator rfl)
    refine ih.unary.next fun right => ?_
    exact grows_build (fun id => .unary id operator right) (fun _ => rfl) (fun _ => rfl)
      fun _ => hoperator
  | none => exact ih.primary.next fun callee => ih.calls callee

/-- Each call puts its node behind the callee and the arguments. -/
theorem calls_succ : ∀ callee,
    Grows [callee] (fun e => [e]) (Parsing.calls (n + 1) callee) := by
  intro callee
  rw [Parsing.calls]
  refine (silent_takeIf _).grows fun found _ => ?_
  cases found with
  | none => exact grows_pure callee (.refl _)
  | some t =>
    refine (grows_listBefore _ (ih.arguments 0)).next fun args => ?_
    refine (silent_expect _ _).grows fun paren _ => ?_
    have hbuild := grows_build (fun id => .call id callee args paren) (fun _ => rfl) (fun _ => rfl)
      (fun _ => trivial)
    refine hbuild.bind [] ?_ ih.calls
    rw [List.append_nil]
    exact (List.perm_append_singleton callee args).symm.subperm

/-- The roots of the arguments stand in their order. -/
theorem arguments_succ : ∀ count,
    Grows [] (fun es => es) (Parsing.arguments (n + 1) count) := by
  intro count
  rw [Parsing.arguments]
  refine (silent_limit count _).grows fun _ _ => ?_
  refine ih.expression.next fun first => ?_
  refine (silent_takeIf _).grows fun comma _ => ?_
  cases comma with
  | none => exact grows_pure [first] (.refl _)
  | some t =>
    refine (ih.arguments (count + 1)).next fun others => grows_pure _ ?_
    exact (List.perm_append_singleton first others).symm.subperm

/-- A literal or a name is a node without parts, and a group has the one in its parentheses. -/
theorem primary_succ :
    Grows [] (fun e => [e]) (Parsing.primary (n + 1)) := by
  rw [Parsing.primary]
  refine (silent_takeIf _).grows fun found _ => ?_
  cases found with
  | some t =>
    exact grows_build (fun id => .literal id ((literal? t).getD .nil)) (fun _ => rfl)
      (fun _ => rfl) fun _ => trivial
  | none =>
    refine (silent_takeIf _).grows fun found _ => ?_
    cases found with
    | some name =>
      exact grows_build (fun id => .read { id, name }) (fun _ => rfl) (fun _ => rfl)
        fun _ => trivial
    | none =>
      refine (silent_takeIf _).grows fun found _ => ?_
      cases found with
      | none => exact grows_fail _
      | some t =>
        refine ih.expression.next fun inner => ?_
        refine (silent_expect _ _).grows fun _ _ => ?_
        exact grows_build (fun id => .group id inner) (fun _ => rfl) (fun _ => rfl)
          fun _ => trivial

end ExpressionsGrow

/-- The builders for expressions keep the arena in order with any fuel. -/
theorem expressionsGrow (n : Nat) : ExpressionsGrow n := by
  induction n with
  | zero =>
    exact ⟨grows_outOfFuel, fun _ _ => grows_outOfFuel, fun _ _ _ _ _ => grows_outOfFuel,
      grows_outOfFuel, fun _ => grows_outOfFuel, fun _ => grows_outOfFuel, grows_outOfFuel⟩
  | succ n ih =>
    exact ⟨ih.expression_succ, ih.level_succ, ih.chain_succ, ih.unary_succ, ih.calls_succ,
      ih.arguments_succ, ih.primary_succ⟩

/-! ## Statements -/

theorem grows_terminated (n : Nat) (cause : SyntaxCause) :
    Grows [] (fun e => [e]) (Parsing.terminated n cause) := by
  refine (expressionsGrow n).expression.next fun e => ?_
  exact (silent_expect _ _).grows fun _ _ => grows_pure e (.refl _)

/-- An expression that is left out adds no root. -/
theorem grows_expressionUnless (n : Nat) (stop : Symbol) :
    Grows [] Option.toList (Parsing.expressionUnless n stop) := by
  refine (silent_nextIs _).grows fun found _ => ?_
  cases found with
  | true => exact grows_pure none (.refl _)
  | false =>
    exact (expressionsGrow n).expression.next fun e => grows_pure (some e) (.refl _)

theorem grows_initialValue (n : Nat) :
    Grows [] Option.toList (Parsing.initialValue n) := by
  refine (silent_takeIf _).grows fun equals _ => ?_
  cases equals with
  | none => exact grows_pure none (.refl _)
  | some t => exact (expressionsGrow n).expression.map some fun _ => .refl _

theorem grows_variableDecl (n : Nat) :
    Grows [] Stmt.fields (Parsing.variableDecl n) := by
  rw [Parsing.variableDecl]
  refine (silent_expectName _).grows fun name _ => ?_
  refine (grows_initialValue n).next fun init => ?_
  refine (silent_expect _ _).grows fun _ _ => grows_pure _ ?_
  rw [List.append_nil]
  exact .refl _

/-- The expressions of a statement that may be missing. -/
def optionFields (s : Option Stmt) : List Expr := s.elim [] Stmt.fields

theorem fieldsAll_toList (s : Option Stmt) : Stmt.fieldsAll s.toList = optionFields s := by
  cases s <;> simp [optionFields, Stmt.fieldsAll]

theorem grows_initializer (n : Nat) :
    Grows [] optionFields (Parsing.initializer n) := by
  refine (silent_takeIf _).grows fun found _ => ?_
  cases found with
  | some t => exact grows_pure none (.refl _)
  | none =>
    refine (silent_takeIf _).grows fun found _ => ?_
    cases found with
    | some t => exact (grows_variableDecl n).map some fun _ => .refl _
    | none =>
      exact (grows_terminated n _).next fun e =>
        grows_pure (some (Stmt.expression e)) (.refl _)

/-- A condition that is left out gets a node of its own. -/
theorem grows_conditionOr (condition : Option Expr) :
    Grows condition.toList (fun e => [e]) (Parsing.conditionOr condition) := by
  cases condition with
  | some e => exact grows_pure e (.refl _)
  | none =>
    exact grows_build (fun id => .literal id (.boolean true)) (fun _ => rfl) (fun _ => rfl)
      fun _ => trivial

/-- The increment stands behind the body, where it was read before it. -/
theorem fields_withIncrement (body : Stmt) (increment : Option Expr) :
    (withIncrement body increment).fields = body.fields ++ increment.toList := by
  cases increment <;> simp [withIncrement, Stmt.fields, Stmt.fieldsAll]

/-- The initializer stands before the loop, as it was read. -/
theorem fields_withInitializer (loop : Stmt) (init : Option Stmt) :
    (withInitializer loop init).fields = optionFields init ++ loop.fields := by
  cases init <;> simp [withInitializer, optionFields, Stmt.fields, Stmt.fieldsAll]

/-- With the given fuel, the builders for statements keep the arena in order. -/
structure StatementsGrow (n : Nat) : Prop where
  declaration : Grows [] Stmt.fields (Parsing.declaration n)
  functionDecl : Grows [] Stmt.fields (Parsing.functionDecl n)
  statement : Grows [] Stmt.fields (Parsing.statement n)
  forLoop : Grows [] Stmt.fields (Parsing.forLoop n)
  branch : Grows [] Stmt.fields (Parsing.branch n)
  whileLoop : Grows [] Stmt.fields (Parsing.whileLoop n)
  block : Grows [] Stmt.fieldsAll (Parsing.block n)

namespace StatementsGrow

variable {n : Nat} (ih : StatementsGrow n)
include ih

theorem declaration_succ :
    Grows [] Stmt.fields (Parsing.declaration (n + 1)) := by
  rw [Parsing.declaration]
  refine (silent_takeIf _).grows fun found _ => ?_
  cases found with
  | some t => exact ih.functionDecl
  | none =>
    refine (silent_takeIf _).grows fun found _ => ?_
    cases found with
    | some t => exact grows_variableDecl n
    | none => exact ih.statement

/-- The expressions of a function are those of its body. -/
theorem functionDecl_succ :
    Grows [] Stmt.fields (Parsing.functionDecl (n + 1)) := by
  rw [Parsing.functionDecl]
  refine (silent_expectName _).grows fun name _ => ?_
  refine (silent_expect _ _).grows fun _ _ => ?_
  refine (silent_parameterList n).grows fun params _ => ?_
  refine (silent_expect _ _).grows fun _ _ => (silent_expect _ _).grows fun _ _ => ?_
  refine ih.block.next fun body => ?_
  refine silent_newFunction.grows fun id _ => grows_pure _ ?_
  rw [List.append_nil]
  exact .refl _

theorem statement_succ :
    Grows [] Stmt.fields (Parsing.statement (n + 1)) := by
  rw [Parsing.statement]
  refine (silent_takeIf _).grows fun found _ => ?_
  cases found with
  | none =>
    exact (grows_terminated n _).next fun e => grows_pure (Stmt.expression e) (.refl _)
  | some t =>
    dsimp only
    split
    · exact ih.forLoop
    · exact ih.branch
    · exact (grows_terminated n _).next fun e => grows_pure (Stmt.print e) (.refl _)
    · refine (grows_expressionUnless n _).next fun value => ?_
      refine (silent_expect _ _).grows fun _ _ => grows_pure _ ?_
      rw [List.append_nil]
      exact .refl _
    · exact ih.whileLoop
    · refine ih.block.next fun body => grows_pure (Stmt.block body) ?_
      rw [List.append_nil]
      exact .refl _

/-- The parts of a `^o^` loop are read in one order and stand in another one, so the roots are
permuted. -/
theorem forLoop_succ :
    Grows [] Stmt.fields (Parsing.forLoop (n + 1)) := by
  rw [Parsing.forLoop]
  refine (silent_expect _ _).grows fun _ _ => ?_
  refine (grows_initializer n).next fun init => ?_
  refine (grows_expressionUnless n _).next fun condition => ?_
  refine (silent_expect _ _).grows fun _ _ => ?_
  refine (grows_expressionUnless n _).next fun increment => ?_
  refine (silent_expect _ _).grows fun _ _ => ?_
  refine ih.statement.next fun body => ?_
  rw [List.append_nil]
  have hcondition : (condition.toList ++
      (body.fields ++ (increment.toList ++ optionFields init))).Perm
      (body.fields ++ (increment.toList ++ (condition.toList ++ optionFields init))) :=
    (List.perm_append_comm_assoc _ _ _).trans ((List.perm_append_comm_assoc _ _ _).append_left _)
  refine (grows_conditionOr condition).bind _ hcondition.subperm fun e => grows_pure _ ?_
  rw [fields_withInitializer, Stmt.fields, fields_withIncrement, ← List.append_assoc body.fields]
  exact List.perm_append_comm.subperm

/-- The expressions of a conditional stand as they are read. -/
theorem branch_succ :
    Grows [] Stmt.fields (Parsing.branch (n + 1)) := by
  rw [Parsing.branch]
  refine (silent_expect _ _).grows fun _ _ => ?_
  refine (expressionsGrow n).expression.next fun condition => ?_
  refine (silent_expect _ _).grows fun _ _ => ?_
  refine ih.statement.next fun thenBranch => ?_
  refine (silent_takeIf _).grows fun found _ => ?_
  cases found with
  | none => exact grows_pure _ (List.perm_append_singleton condition _).symm.subperm
  | some t =>
    refine ih.statement.next fun elseBranch => ?_
    refine grows_pure _ (List.Perm.subperm ?_)
    rw [Stmt.fields, ← List.append_assoc]
    exact (List.perm_append_comm.cons condition).trans (List.perm_append_singleton condition _).symm

theorem whileLoop_succ :
    Grows [] Stmt.fields (Parsing.whileLoop (n + 1)) := by
  rw [Parsing.whileLoop]
  refine (silent_expect _ _).grows fun _ _ => ?_
  refine (expressionsGrow n).expression.next fun condition => ?_
  refine (silent_expect _ _).grows fun _ _ => ?_
  refine ih.statement.next fun body => grows_pure _ ?_
  exact (List.perm_append_singleton condition _).symm.subperm

/-- The expressions of a block are those of its statements, one after the other. -/
theorem block_succ :
    Grows [] Stmt.fieldsAll (Parsing.block (n + 1)) := by
  rw [Parsing.block]
  refine silent_peek?.grows fun next _ => ?_
  cases next with
  | none => exact grows_fail _
  | some t =>
    dsimp only
    split
    · exact (silent_expect _ _).grows fun _ _ => grows_pure [] (.refl _)
    · refine ih.declaration.declared.next fun first => ih.block.next fun others => ?_
      refine grows_pure _ ?_
      rw [Stmt.fieldsAll_append, fieldsAll_toList, List.append_nil]
      exact List.perm_append_comm.subperm

end StatementsGrow

/-- The builders for statements keep the arena in order with any fuel. -/
theorem statementsGrow (n : Nat) : StatementsGrow n := by
  induction n with
  | zero =>
    exact ⟨grows_outOfFuel, grows_outOfFuel, grows_outOfFuel, grows_outOfFuel,
      grows_outOfFuel, grows_outOfFuel, grows_outOfFuel⟩
  | succ n ih =>
    exact ⟨ih.declaration_succ, ih.functionDecl_succ, ih.statement_succ, ih.forLoop_succ,
      ih.branch_succ, ih.whileLoop_succ, ih.block_succ⟩

/-! ## Programs -/

/-- The expressions of the statements in some slots. -/
def slotFields (slots : List (Option Stmt)) : List Expr := Stmt.fieldsAll (slots.filterMap id)

/-- **The builder for a program keeps the arena in order.** -/
theorem grows_declarations (n : Nat) :
    Grows [] slotFields (Builder.declarations n) := by
  induction n with
  | zero => exact grows_outOfFuel
  | succ n ih =>
    rw [Builder.declarations, Parsing.declarations]
    refine silent_peek?.grows fun next _ => ?_
    cases next with
    | none => exact grows_pure [] (.refl _)
    | some t =>
      refine (statementsGrow n).declaration.declared.next fun first => ih.next fun others => ?_
      refine grows_pure _ ?_
      have hfields : slotFields (first :: others) = optionFields first ++ slotFields others := by
        cases first <;> simp [slotFields, optionFields, Stmt.fieldsAll]
      rw [hfields, List.append_nil]
      exact List.perm_append_comm.subperm

/-- **Without the arena, a parse by the builder is one by the parser.** -/
theorem Builder.parse_fst (tokens : List Token) (functions : Nat) (arena : List Node) :
    (Builder.parse tokens functions arena).1 = Nya.parse tokens arena.length functions := by
  unfold Builder.parse Nya.parse
  obtain ⟨rest, stop⟩ := splitAtEnd tokens
  dsimp only
  rw [← erases_declarations (fuelFor rest) _ arena]
  generalize Builder.declarations (fuelFor rest) _ arena = result
  rcases result with ⟨_ | _ | _, arena'⟩ <;> rfl

/-- **A parse keeps what the arena holds, and what it adds is in order.** -/
theorem Builder.parse_snd (tokens : List Token) (functions : Nat) (arena : List Node) :
    arena <+: (Builder.parse tokens functions arena).2 ∧
      (Builder.parse tokens functions arena).1.nodes =
        (Builder.parse tokens functions arena).2.length ∧
      Sprout arena.length (Builder.parse tokens functions arena).2
        (slotFields (Builder.parse tokens functions arena).1.statements) := by
  unfold Builder.parse
  obtain ⟨rest, stop⟩ := splitAtEnd tokens
  dsimp only
  have hgrown := grows_declarations (fuelFor rest) arena.length []
    ⟨rest, arena.length, functions, []⟩ arena rfl (Sprout.start arena)
  generalize Builder.declarations (fuelFor rest) _ arena = result at hgrown ⊢
  rcases result with ⟨⟨slots, s⟩ | ⟨f, s⟩ | _, arena'⟩
  · obtain ⟨hle, hs, hsprout⟩ := hgrown
    exact ⟨hle, hs, by simpa only [List.append_nil] using hsprout⟩
  · exact hgrown
  · exact ⟨List.prefix_rfl, rfl, Sprout.start arena⟩

end Nya.Parse
