import Nya.Proofs.Grammar.Levels

/-!
# The spelling of statements

`Stmt.Spelled` says which tokens spell a statement. A `^o^` loop has no tree of its own: it spells
the loop that it is read as. What stands in a block spells the declarations of the block one after
the other, so a spelled block has lost none of them.

What spells a statement is a word of the grammar: `word_of_spelled`. The parts of a `^o^` loop as
it is written are a `ForLoop`.
-/

namespace Nya

/-! ## Parts of statements -/

/-- The tokens spell the expression, if there is one. -/
def Expr.SpelledOption : Option Expr → List Token → Prop
  | none, ts => ts = []
  | some e, ts => e.SpelledAt 0 ts

/-- The tokens spell the expression and the semicolon after it. -/
def Expr.SpelledLine (e : Expr) (ts : List Token) : Prop :=
  ∃ us stop, ts = us ++ [stop] ∧ e.SpelledAt 0 us ∧ stop.isSymbol .semicolon = true

/-- The tokens give a variable its value, if it has one. -/
def Expr.SpelledValue : Option Expr → List Token → Prop
  | none, ts => ts = []
  | some e, ts => ∃ equals us, ts = equals :: us ∧ equals.isSymbol .equal = true ∧
    e.SpelledAt 0 us

/-- The tokens are names that follow another one, each after a comma. -/
def NamesAfter : List Token → List Token → Prop
  | [], ts => ts = []
  | name :: names, ts => ∃ comma us, ts = comma :: name :: us ∧ comma.isSymbol .comma = true ∧
    name.kind = .identifier ∧ NamesAfter names us

/-- The tokens are the names, with a comma between any two of them. -/
def Names : List Token → List Token → Prop
  | [], ts => ts = []
  | name :: names, ts => ∃ us, ts = name :: us ∧ name.kind = .identifier ∧ NamesAfter names us

namespace Stmt

/-- Whether the statement declares a name, and may not be the branch of another one. -/
def isDeclaration : Stmt → Bool
  | .var _ _ | .function _ _ _ _ => true
  | _ => false

/-- The tokens declare the variable. -/
def SpelledVar (name : Token) (init : Option Expr) (ts : List Token) : Prop :=
  ∃ start us stop, ts = start :: name :: (us ++ [stop]) ∧ start.isSymbol .var = true ∧
    name.kind = .identifier ∧ Expr.SpelledValue init us ∧ stop.isSymbol .semicolon = true

/-- The tokens spell the first clause of a `^o^` loop. -/
def SpelledClause : Option Stmt → List Token → Prop
  | none, ts => ∃ stop, ts = [stop] ∧ stop.isSymbol .semicolon = true
  | some (.var name init), ts => SpelledVar name init ts
  | some (.expression e), ts => e.SpelledLine ts
  | some _, _ => False

/-! ## Statements -/

mutual

/-- The tokens spell the statement. -/
inductive Spelled : Stmt → List Token → Prop where
  | expression {e : Expr} {ts : List Token} (line : e.SpelledLine ts) : Spelled (.expression e) ts
  | print {start : Token} {e : Expr} {ts : List Token} (hstart : start.isSymbol .print = true)
      (line : e.SpelledLine ts) : Spelled (.print e) (start :: ts)
  | var {name : Token} {init : Option Expr} {ts : List Token} (h : SpelledVar name init ts) :
      Spelled (.var name init) ts
  | block {start stop : Token} {body : List Stmt} {us : List Token}
      (hstart : start.isSymbol .blockStart = true) (hbody : SpelledAll body us)
      (hstop : stop.isSymbol .blockEnd = true) : Spelled (.block body) (start :: (us ++ [stop]))
  | branch {start paren close : Token} {condition : Expr} {thenBranch : Stmt} {us vs : List Token}
      (hstart : start.isSymbol .ifThen = true) (hparen : paren.isSymbol .leftParen = true)
      (hcondition : condition.SpelledAt 0 us) (hclose : close.isSymbol .rightParen = true)
      (hthen : Spelled thenBranch vs) (hstatement : thenBranch.isDeclaration = false) :
      Spelled (.branch condition thenBranch none) (start :: paren :: (us ++ close :: vs))
  | branchElse {start paren close keyword : Token} {condition : Expr}
      {thenBranch elseBranch : Stmt} {us vs ws : List Token}
      (hstart : start.isSymbol .ifThen = true) (hparen : paren.isSymbol .leftParen = true)
      (hcondition : condition.SpelledAt 0 us) (hclose : close.isSymbol .rightParen = true)
      (hthen : Spelled thenBranch vs) (hstatement : thenBranch.isDeclaration = false)
      (hkeyword : keyword.isSymbol .ifElse = true) (helse : Spelled elseBranch ws)
      (hstatement' : elseBranch.isDeclaration = false) :
      Spelled (.branch condition thenBranch (some elseBranch))
        (start :: paren :: (us ++ close :: (vs ++ keyword :: ws)))
  | loop {start paren close : Token} {condition : Expr} {body : Stmt} {us vs : List Token}
      (hstart : start.isSymbol .whileLoop = true) (hparen : paren.isSymbol .leftParen = true)
      (hcondition : condition.SpelledAt 0 us) (hclose : close.isSymbol .rightParen = true)
      (hbody : Spelled body vs) (hstatement : body.isDeclaration = false) :
      Spelled (.loop condition body) (start :: paren :: (us ++ close :: vs))
  | forLoop {start paren stop close : Token} {init : Option Stmt}
      {condition increment : Option Expr} {id : Nat} {body : Stmt} {us vs ws xs : List Token}
      (hstart : start.isSymbol .forLoop = true) (hparen : paren.isSymbol .leftParen = true)
      (hinit : SpelledClause init us) (hcondition : Expr.SpelledOption condition vs)
      (hstop : stop.isSymbol .semicolon = true) (hincrement : Expr.SpelledOption increment ws)
      (hclose : close.isSymbol .rightParen = true) (hbody : Spelled body xs)
      (hstatement : body.isDeclaration = false) :
      Spelled
        (Parse.withInitializer
          (.loop (condition.getD (.literal id (.boolean true)))
            (Parse.withIncrement body increment)) init)
        (start :: paren :: (us ++ (vs ++ stop :: (ws ++ close :: xs))))
  | function {start name paren close first last : Token} {id : Nat} {params : List Token}
      {body : List Stmt} {us vs : List Token}
      (hstart : start.isSymbol .function = true) (hname : name.kind = .identifier)
      (hparen : paren.isSymbol .leftParen = true) (hparams : Names params us)
      (hlength : params.length ≤ Parse.maxArguments) (hclose : close.isSymbol .rightParen = true)
      (hfirst : first.isSymbol .blockStart = true) (hbody : SpelledAll body vs)
      (hlast : last.isSymbol .blockEnd = true) :
      Spelled (.function id name params body)
        (start :: name :: paren :: (us ++ close :: first :: (vs ++ [last])))
  | ret {start stop : Token} {value : Option Expr} {us : List Token}
      (hstart : start.isSymbol .ret = true) (hvalue : Expr.SpelledOption value us)
      (hstop : stop.isSymbol .semicolon = true) :
      Spelled (.ret start value) (start :: (us ++ [stop]))

/-- The tokens spell the statements, one after the other. -/
inductive SpelledAll : List Stmt → List Token → Prop where
  | nil : SpelledAll [] []
  | cons {s : Stmt} {ss : List Stmt} {us vs : List Token} (first : Spelled s us)
      (others : SpelledAll ss vs) : SpelledAll (s :: ss) (us ++ vs)

end

end Stmt

/-! ## Loops as they are written -/

/-- The parts of a `^o^` loop. All but the body may be missing. -/
structure ForLoop where
  init : Option Stmt
  condition : Option Expr
  increment : Option Expr
  body : Stmt

namespace ForLoop

/-- The statement that the loop is read as. The number is that of a condition that is missing. -/
def stmt (l : ForLoop) (id : Nat) : Stmt :=
  Parse.withInitializer
    (.loop (l.condition.getD (.literal id (.boolean true)))
      (Parse.withIncrement l.body l.increment))
    l.init

/-- The tokens spell the loop. -/
inductive Spelled (l : ForLoop) : List Token → Prop where
  | intro {start paren stop close : Token} {us vs ws xs : List Token}
      (hstart : start.isSymbol .forLoop = true) (hparen : paren.isSymbol .leftParen = true)
      (hinit : Stmt.SpelledClause l.init us) (hcondition : Expr.SpelledOption l.condition vs)
      (hstop : stop.isSymbol .semicolon = true) (hincrement : Expr.SpelledOption l.increment ws)
      (hclose : close.isSymbol .rightParen = true) (hbody : l.body.Spelled xs)
      (hstatement : l.body.isDeclaration = false) :
      Spelled l (start :: paren :: (us ++ (vs ++ stop :: (ws ++ close :: xs))))

/-- What spells the loop as it is written spells the statement that it is read as. -/
theorem Spelled.stmt {l : ForLoop} {ts : List Token} (h : l.Spelled ts) (id : Nat) :
    (l.stmt id).Spelled ts := by
  cases h with
  | intro hstart hparen hinit hcondition hstop hincrement hclose hbody hstatement =>
    exact .forLoop hstart hparen hinit hcondition hstop hincrement hclose hbody hstatement

/-- What a loop is read as declares nothing by itself. -/
theorem isDeclaration_stmt (l : ForLoop) (id : Nat) : (l.stmt id).isDeclaration = false := by
  obtain ⟨init, condition, increment, body⟩ := l
  cases init <;> rfl

end ForLoop

/-!
## Words

What the words of each rule look like, given those of the rules inside it.
-/

namespace Grammar

variable {N : Nonterminal → List Token → Prop} {w : List Token}

/-- A declaration is a function, a variable or a statement. -/
theorem matches_declaration : Matches N (production .declaration) w ↔
    N .funDecl w ∨ N .varDecl w ∨ N .statement w := by
  simp only [production, matches_or, matches_nonterminal, or_assoc]

theorem matches_statement : Matches N (production .statement) w ↔
    N .exprStmt w ∨ N .printStmt w ∨ N .forStmt w ∨ N .whileStmt w ∨ N .ifStmt w ∨ N .block w ∨
      N .returnStmt w := by
  simp only [production, matches_or, matches_nonterminal, or_assoc]

theorem matches_exprStmt : Matches N (production .exprStmt) w ↔ ∃ us stop,
    w = us ++ [stop] ∧ N .expression us ∧ stop.isSymbol .semicolon = true := by
  constructor
  · rintro ⟨us, _, rfl, hus, stop, rfl, hstop⟩
    exact ⟨us, stop, rfl, hus, hstop⟩
  · rintro ⟨us, stop, rfl, hus, hstop⟩
    exact ⟨us, [stop], rfl, hus, stop, rfl, hstop⟩

theorem matches_printStmt : Matches N (production .printStmt) w ↔ ∃ start us stop,
    w = start :: (us ++ [stop]) ∧ start.isSymbol .print = true ∧ N .expression us ∧
      stop.isSymbol .semicolon = true := by
  simp only [production, matches_assoc]
  constructor
  · rintro ⟨_, _, rfl, ⟨start, rfl, hstart⟩, us, _, rfl, hus, stop, rfl, hstop⟩
    exact ⟨start, us, stop, rfl, hstart, hus, hstop⟩
  · rintro ⟨start, us, stop, rfl, hstart, hus, hstop⟩
    exact ⟨[start], _, rfl, ⟨start, rfl, hstart⟩, us, _, rfl, hus, stop, rfl, hstop⟩

/-- A return may have a value. -/
theorem matches_returnStmt : Matches N (production .returnStmt) w ↔ ∃ start us stop,
    w = start :: (us ++ [stop]) ∧ start.isSymbol .ret = true ∧ (us = [] ∨ N .expression us) ∧
      stop.isSymbol .semicolon = true := by
  simp only [production, matches_assoc]
  constructor
  · rintro ⟨_, _, rfl, ⟨start, rfl, hstart⟩, us, _, rfl, hus, stop, rfl, hstop⟩
    exact ⟨start, us, stop, rfl, hstart, hus, hstop⟩
  · rintro ⟨start, us, stop, rfl, hstart, hus, hstop⟩
    exact ⟨[start], _, rfl, ⟨start, rfl, hstart⟩, us, _, rfl, hus, stop, rfl, hstop⟩

/-- A block is a row of declarations between braces. -/
theorem matches_block : Matches N (production .block) w ↔
    ∃ (start : Token) (us : List (List Token)) (stop : Token),
      w = start :: (us.flatten ++ [stop]) ∧ start.isSymbol .blockStart = true ∧
      (∀ u ∈ us, N .declaration u) ∧ stop.isSymbol .blockEnd = true := by
  simp only [production, matches_assoc]
  constructor
  · rintro ⟨_, _, rfl, ⟨start, rfl, hstart⟩, _, _, rfl, ⟨us, rfl, hus⟩, stop, rfl, hstop⟩
    exact ⟨start, us, stop, rfl, hstart, hus, hstop⟩
  · rintro ⟨start, us, stop, rfl, hstart, hus, hstop⟩
    exact ⟨[start], _, rfl, ⟨start, rfl, hstart⟩, _, _, rfl, ⟨us, rfl, hus⟩, stop, rfl, hstop⟩

theorem matches_whileStmt : Matches N (production .whileStmt) w ↔ ∃ start paren us close vs,
    w = start :: paren :: (us ++ close :: vs) ∧ start.isSymbol .whileLoop = true ∧
      paren.isSymbol .leftParen = true ∧ N .expression us ∧ close.isSymbol .rightParen = true ∧
      N .statement vs := by
  simp only [production, matches_assoc]
  constructor
  · rintro ⟨_, _, rfl, ⟨start, rfl, hstart⟩, _, _, rfl, ⟨paren, rfl, hparen⟩, us, _, rfl, hus,
      _, vs, rfl, ⟨close, rfl, hclose⟩, hvs⟩
    exact ⟨start, paren, us, close, vs, rfl, hstart, hparen, hus, hclose, hvs⟩
  · rintro ⟨start, paren, us, close, vs, rfl, hstart, hparen, hus, hclose, hvs⟩
    exact ⟨[start], _, rfl, ⟨start, rfl, hstart⟩, [paren], _, rfl, ⟨paren, rfl, hparen⟩, us, _, rfl,
      hus, [close], vs, rfl, ⟨close, rfl, hclose⟩, hvs⟩

/-- A conditional has a second branch only behind an `^e^`. -/
theorem matches_ifStmt : Matches N (production .ifStmt) w ↔ ∃ start paren us close vs ws,
    w = start :: paren :: (us ++ close :: (vs ++ ws)) ∧ start.isSymbol .ifThen = true ∧
      paren.isSymbol .leftParen = true ∧ N .expression us ∧ close.isSymbol .rightParen = true ∧
      N .statement vs ∧ (ws = [] ∨ ∃ keyword xs, ws = keyword :: xs ∧
        keyword.isSymbol .ifElse = true ∧ N .statement xs) := by
  simp only [production, matches_assoc]
  constructor
  · rintro ⟨_, _, rfl, ⟨start, rfl, hstart⟩, _, _, rfl, ⟨paren, rfl, hparen⟩, us, _, rfl, hus,
      _, _, rfl, ⟨close, rfl, hclose⟩, vs, ws, rfl, hvs, hws⟩
    refine ⟨start, paren, us, close, vs, ws, rfl, hstart, hparen, hus, hclose, hvs, ?_⟩
    rcases hws with rfl | ⟨_, xs, rfl, ⟨keyword, rfl, hkeyword⟩, hxs⟩
    · exact Or.inl rfl
    · exact Or.inr ⟨keyword, xs, rfl, hkeyword, hxs⟩
  · rintro ⟨start, paren, us, close, vs, ws, rfl, hstart, hparen, hus, hclose, hvs, hws⟩
    refine ⟨[start], _, rfl, ⟨start, rfl, hstart⟩, [paren], _, rfl, ⟨paren, rfl, hparen⟩, us, _,
      rfl, hus, [close], _, rfl, ⟨close, rfl, hclose⟩, vs, ws, rfl, hvs, ?_⟩
    rcases hws with rfl | ⟨keyword, xs, rfl, hkeyword, hxs⟩
    · exact Or.inl rfl
    · exact Or.inr ⟨[keyword], xs, rfl, ⟨keyword, rfl, hkeyword⟩, hxs⟩

/-- A `^o^` loop has three clauses, each of which may be left out. -/
theorem matches_forStmt : Matches N (production .forStmt) w ↔
    ∃ start paren us vs stop ws close xs,
      w = start :: paren :: (us ++ (vs ++ stop :: (ws ++ close :: xs))) ∧
      start.isSymbol .forLoop = true ∧ paren.isSymbol .leftParen = true ∧
      (N .varDecl us ∨ N .exprStmt us ∨ ∃ t, us = [t] ∧ t.isSymbol .semicolon = true) ∧
      (vs = [] ∨ N .expression vs) ∧ stop.isSymbol .semicolon = true ∧
      (ws = [] ∨ N .expression ws) ∧ close.isSymbol .rightParen = true ∧ N .statement xs := by
  simp only [production, matches_assoc]
  constructor
  · rintro ⟨_, _, rfl, ⟨start, rfl, hstart⟩, _, _, rfl, ⟨paren, rfl, hparen⟩, us, _, rfl, hus,
      vs, _, rfl, hvs, _, _, rfl, ⟨stop, rfl, hstop⟩, ws, _, rfl, hws, _, xs, rfl,
      ⟨close, rfl, hclose⟩, hxs⟩
    exact ⟨start, paren, us, vs, stop, ws, close, xs, rfl, hstart, hparen, or_assoc.mp hus, hvs,
      hstop, hws, hclose, hxs⟩
  · rintro ⟨start, paren, us, vs, stop, ws, close, xs, rfl, hstart, hparen, hus, hvs, hstop, hws,
      hclose, hxs⟩
    exact ⟨[start], _, rfl, ⟨start, rfl, hstart⟩, [paren], _, rfl, ⟨paren, rfl, hparen⟩, us, _, rfl,
      or_assoc.mpr hus, vs, _, rfl, hvs, [stop], _, rfl, ⟨stop, rfl, hstop⟩, ws, _, rfl, hws,
      [close], xs, rfl, ⟨close, rfl, hclose⟩, hxs⟩

/-- A variable may have a value. -/
theorem matches_varDecl : Matches N (production .varDecl) w ↔ ∃ start name us stop,
    w = start :: name :: (us ++ [stop]) ∧ start.isSymbol .var = true ∧ name.kind = .identifier ∧
      (us = [] ∨ ∃ equals vs, us = equals :: vs ∧ equals.isSymbol .equal = true ∧
        N .expression vs) ∧ stop.isSymbol .semicolon = true := by
  simp only [production, matches_assoc]
  constructor
  · rintro ⟨_, _, rfl, ⟨start, rfl, hstart⟩, _, _, rfl, ⟨name, rfl, hname⟩, us, _, rfl, hus,
      stop, rfl, hstop⟩
    refine ⟨start, name, us, stop, rfl, hstart, eq_of_beq hname, ?_, hstop⟩
    rcases hus with rfl | ⟨_, vs, rfl, ⟨equals, rfl, hequals⟩, hvs⟩
    · exact Or.inl rfl
    · exact Or.inr ⟨equals, vs, rfl, hequals, hvs⟩
  · rintro ⟨start, name, us, stop, rfl, hstart, hname, hus, hstop⟩
    refine ⟨[start], _, rfl, ⟨start, rfl, hstart⟩, [name], _, rfl,
      ⟨name, rfl, beq_iff_eq.mpr hname⟩, us, _, rfl, ?_, stop, rfl, hstop⟩
    rcases hus with rfl | ⟨equals, vs, rfl, hequals, hvs⟩
    · exact Or.inl rfl
    · exact Or.inr ⟨[equals], vs, rfl, ⟨equals, rfl, hequals⟩, hvs⟩

theorem matches_funDecl : Matches N (production .funDecl) w ↔ ∃ start name paren us close vs,
    w = start :: name :: paren :: (us ++ close :: vs) ∧ start.isSymbol .function = true ∧
      name.kind = .identifier ∧ paren.isSymbol .leftParen = true ∧
      (us = [] ∨ N .parameters us) ∧ close.isSymbol .rightParen = true ∧ N .block vs := by
  simp only [production, matches_assoc]
  constructor
  · rintro ⟨_, _, rfl, ⟨start, rfl, hstart⟩, _, _, rfl, ⟨name, rfl, hname⟩, _, _, rfl,
      ⟨paren, rfl, hparen⟩, us, _, rfl, hus, _, vs, rfl, ⟨close, rfl, hclose⟩, hvs⟩
    exact ⟨start, name, paren, us, close, vs, rfl, hstart, eq_of_beq hname, hparen, hus, hclose,
      hvs⟩
  · rintro ⟨start, name, paren, us, close, vs, rfl, hstart, hname, hparen, hus, hclose, hvs⟩
    exact ⟨[start], _, rfl, ⟨start, rfl, hstart⟩, [name], _, rfl,
      ⟨name, rfl, beq_iff_eq.mpr hname⟩, [paren], _, rfl, ⟨paren, rfl, hparen⟩, us, _, rfl, hus,
      [close], vs, rfl, ⟨close, rfl, hclose⟩, hvs⟩

/-- Rounds of a comma and a name are names that follow another one. -/
theorem names_of_rounds {rounds : List (List Token)}
    (h : ∀ v ∈ rounds, Matches N (.symbol .comma ++ .identifier) v) :
    ∃ names : List Token, names.length = rounds.length ∧ NamesAfter names rounds.flatten := by
  induction rounds with
  | nil => exact ⟨[], rfl, rfl⟩
  | cons v rounds ih =>
    obtain ⟨_, _, rfl, ⟨comma, rfl, hcomma⟩, name, rfl, hname⟩ := h v List.mem_cons_self
    obtain ⟨names, hlength, hnames⟩ := ih fun v hv => h v (List.mem_cons_of_mem _ hv)
    refine ⟨name :: names, by rw [List.length_cons, List.length_cons, hlength], ?_⟩
    exact ⟨comma, rounds.flatten, rfl, hcomma, eq_of_beq hname, hnames⟩

/-- Names that follow another one are rounds of a comma and a name. -/
theorem rounds_of_names : ∀ {names w : List Token}, NamesAfter names w →
    ∃ rounds : List (List Token), rounds.length = names.length ∧ w = rounds.flatten ∧
      ∀ v ∈ rounds, Matches N (.symbol .comma ++ .identifier) v
  | [], _, h => ⟨[], rfl, h, by simp⟩
  | name :: names, _, ⟨comma, us, rfl, hcomma, hname, hus⟩ => by
    obtain ⟨rounds, hlength, rfl, hrounds⟩ := rounds_of_names hus
    refine ⟨[comma, name] :: rounds, by rw [List.length_cons, List.length_cons, hlength], rfl, ?_⟩
    intro v hv
    cases hv with
    | head => exact ⟨[comma], [name], rfl, ⟨comma, rfl, hcomma⟩, name, rfl, beq_iff_eq.mpr hname⟩
    | tail _ hv => exact hrounds v hv

/-- The words of the parameter rule are names with commas, not too many. -/
theorem matches_parameters : Matches N (production .parameters) w ↔ ∃ name names,
    (name :: names).length ≤ Parse.maxArguments ∧ Names (name :: names) w := by
  constructor
  · rintro ⟨_, _, rfl, ⟨name, rfl, hname⟩, rounds, hlength, rfl, hrounds⟩
    obtain ⟨names, hnames, hafter⟩ := names_of_rounds hrounds
    refine ⟨name, names, ?_, rounds.flatten, rfl, eq_of_beq hname, hafter⟩
    rw [List.length_cons, hnames]
    exact Nat.add_le_of_le_sub (by decide) hlength
  · rintro ⟨name, names, hlength, us, rfl, hname, hafter⟩
    obtain ⟨rounds, hrounds, rfl, hitems⟩ := rounds_of_names (N := N) hafter
    rw [List.length_cons, ← hrounds] at hlength
    exact ⟨[name], _, rfl, ⟨name, rfl, beq_iff_eq.mpr hname⟩, rounds, Nat.le_sub_of_add_le hlength,
      rfl, hitems⟩

/-! ## What spells a statement is a word -/

theorem word_of_spelledAt {e : Expr} (h : e.SpelledAt 0 w) : Word .expression w :=
  word_expression_iff.mpr ⟨e, h⟩

theorem word_of_spelledOption : ∀ {e : Option Expr} {w : List Token}, Expr.SpelledOption e w →
    w = [] ∨ Word .expression w
  | none, _, h => Or.inl h
  | some _, _, h => Or.inr (word_of_spelledAt h)

theorem word_of_spelledLine {e : Expr} (h : e.SpelledLine w) : Word .exprStmt w := by
  obtain ⟨us, stop, rfl, he, hstop⟩ := h
  exact word_of_matches (matches_exprStmt.mpr ⟨us, stop, rfl, word_of_spelledAt he, hstop⟩)

theorem word_of_spelledVar {name : Token} {init : Option Expr} (h : Stmt.SpelledVar name init w) :
    Word .varDecl w := by
  obtain ⟨start, us, stop, rfl, hstart, hname, hvalue, hstop⟩ := h
  refine word_of_matches (matches_varDecl.mpr
    ⟨start, name, us, stop, rfl, hstart, hname, ?_, hstop⟩)
  cases init with
  | none => exact Or.inl hvalue
  | some e =>
    obtain ⟨equals, vs, rfl, hequals, he⟩ := hvalue
    exact Or.inr ⟨equals, vs, rfl, hequals, word_of_spelledAt he⟩

/-- What spells a first clause is a variable, an expression or a semicolon. -/
theorem word_of_spelledClause : ∀ {init : Option Stmt} {w : List Token},
    Stmt.SpelledClause init w →
    Word .varDecl w ∨ Word .exprStmt w ∨ ∃ t, w = [t] ∧ t.isSymbol .semicolon = true
  | none, _, h => Or.inr (Or.inr h)
  | some (.var _ _), _, h => Or.inl (word_of_spelledVar h)
  | some (.expression _), _, h => Or.inr (Or.inl (word_of_spelledLine h))

/-- Every kind of statement is a statement, and a declaration. -/
theorem word_of_statement {declares : Prop}
    (h : Word .exprStmt w ∨ Word .printStmt w ∨ Word .forStmt w ∨ Word .whileStmt w ∨
      Word .ifStmt w ∨ Word .block w ∨ Word .returnStmt w) :
    Word .declaration w ∧ (declares → Word .statement w) := by
  have hstatement : Word .statement w := word_of_matches (matches_statement.mpr h)
  exact ⟨word_of_matches (matches_declaration.mpr (Or.inr (Or.inr hstatement))),
    fun _ => hstatement⟩

/-- Names with commas between them are parameters, if there are not too many. -/
theorem word_of_names : ∀ {names w : List Token}, names.length ≤ Parse.maxArguments →
    Names names w → w = [] ∨ Word .parameters w
  | [], _, _, h => Or.inl h
  | name :: names, _, hlength, h =>
    Or.inr (word_of_matches (matches_parameters.mpr ⟨name, names, hlength, h⟩))

theorem word_block {start stop : Token} {us : List (List Token)}
    (hstart : start.isSymbol .blockStart = true) (hus : ∀ u ∈ us, Word .declaration u)
    (hstop : stop.isSymbol .blockEnd = true) : Word .block (start :: (us.flatten ++ [stop])) :=
  word_of_matches (matches_block.mpr ⟨start, us, stop, rfl, hstart, hus, hstop⟩)

mutual

/-- What spells a statement is a declaration, and a statement unless it declares a name. -/
theorem word_of_spelled : ∀ {s : Stmt} {w : List Token}, s.Spelled w →
    Word .declaration w ∧ (s.isDeclaration = false → Word .statement w)
  | _, _, .expression line =>
    word_of_statement (Or.inl (word_of_spelledLine line))
  | _, _, .print hstart ⟨us, stop, hts, he, hstop⟩ => by
    subst hts
    have hprint : Word .printStmt _ := word_of_matches (matches_printStmt.mpr
      ⟨_, us, stop, rfl, hstart, word_of_spelledAt he, hstop⟩)
    exact word_of_statement (by simp only [hprint, true_or, or_true])
  | _, _, .var h =>
    ⟨word_of_matches (matches_declaration.mpr (Or.inr (Or.inl (word_of_spelledVar h)))),
      fun hfalse => by cases hfalse⟩
  | _, _, .block hstart hbody hstop => by
    obtain ⟨us, rfl, hus⟩ := words_of_spelledAll hbody
    exact word_of_statement (by simp only [word_block hstart hus hstop, true_or, or_true])
  | _, _, .branch hstart hparen hcondition hclose hthen hstatement => by
    have hword := (word_of_spelled hthen).2 hstatement
    have hif : Word .ifStmt _ := word_of_matches (matches_ifStmt.mpr
      ⟨_, _, _, _, _, [], rfl, hstart, hparen, word_of_spelledAt hcondition, hclose, hword,
        Or.inl rfl⟩)
    rw [List.append_nil] at hif
    exact word_of_statement (by simp only [hif, true_or, or_true])
  | _, _, .branchElse hstart hparen hcondition hclose hthen hstatement hkeyword helse
      hstatement' => by
    have hword := (word_of_spelled hthen).2 hstatement
    have hword' := (word_of_spelled helse).2 hstatement'
    have hif : Word .ifStmt _ := word_of_matches (matches_ifStmt.mpr
      ⟨_, _, _, _, _, _, rfl, hstart, hparen, word_of_spelledAt hcondition, hclose, hword,
        Or.inr ⟨_, _, rfl, hkeyword, hword'⟩⟩)
    exact word_of_statement (by simp only [hif, true_or, or_true])
  | _, _, .loop hstart hparen hcondition hclose hbody hstatement => by
    have hword := (word_of_spelled hbody).2 hstatement
    have hwhile : Word .whileStmt _ := word_of_matches (matches_whileStmt.mpr
      ⟨_, _, _, _, _, rfl, hstart, hparen, word_of_spelledAt hcondition, hclose, hword⟩)
    exact word_of_statement (by simp only [hwhile, true_or, or_true])
  | _, _, .forLoop hstart hparen hinit hcondition hstop hincrement hclose hbody hstatement => by
    have hword := (word_of_spelled hbody).2 hstatement
    have hfor : Word .forStmt _ := word_of_matches (matches_forStmt.mpr
      ⟨_, _, _, _, _, _, _, _, rfl, hstart, hparen, word_of_spelledClause hinit,
        word_of_spelledOption hcondition, hstop, word_of_spelledOption hincrement, hclose, hword⟩)
    exact word_of_statement (by simp only [hfor, true_or, or_true])
  | _, _, .function hstart hname hparen hparams hlength hclose hfirst hbody hlast => by
    obtain ⟨vs, rfl, hvs⟩ := words_of_spelledAll hbody
    have hfun : Word .funDecl _ := word_of_matches (matches_funDecl.mpr
      ⟨_, _, _, _, _, _, rfl, hstart, hname, hparen, word_of_names hlength hparams, hclose,
        word_block hfirst hvs hlast⟩)
    exact ⟨word_of_matches (matches_declaration.mpr (Or.inl hfun)), fun hfalse => by cases hfalse⟩
  | _, _, .ret hstart hvalue hstop => by
    have hret : Word .returnStmt _ := word_of_matches (matches_returnStmt.mpr
      ⟨_, _, _, rfl, hstart, word_of_spelledOption hvalue, hstop⟩)
    exact word_of_statement (by simp only [hret, or_true])

/-- What spells statements is a row of declarations. -/
theorem words_of_spelledAll : ∀ {ss : List Stmt} {w : List Token}, Stmt.SpelledAll ss w →
    ∃ us : List (List Token), w = us.flatten ∧ ∀ u ∈ us, Word .declaration u
  | _, _, .nil => ⟨[], rfl, by simp⟩
  | _, _, .cons first others => by
    obtain ⟨us, rfl, hus⟩ := words_of_spelledAll others
    refine ⟨_ :: us, rfl, ?_⟩
    intro u hu
    cases hu with
    | head => exact (word_of_spelled first).1
    | tail _ hu => exact hus u hu

end

end Grammar

end Nya
