import Nya.Proofs.Parse.Ends
import Nya.Proofs.Parse.ReadsProgram
import Nya.Proofs.Parse.RoundTrip
import Nya.Proofs.Token.Seam

/-!
# The parser accepts its grammar

A list of tokens is read without a fault exactly if it is a word of the grammar. That only words are
read so was shown by reading; here it is shown that all of them are.

The grammar does not say to which conditional an `^e^` belongs, while the parser gives it to the
innermost one that has none yet. So what is read for a word of the grammar need not be the tree that
the word was derived as, and a statement is not always read up to its end: if conditionals in it are
still without an `^e^`, those go on with what follows. `Tails` counts these conditionals, and
`Accepted` says for each rule where its words lead the parser.
-/

namespace Nya.Parse

open Grammar

variable {α : Type} {ts us rest w : List Token} {e : End}

/-! ## Parts of statements -/

/-- A word for an expression is read to its end, if no operator follows it. -/
theorem reaches_expression (h : Word .expression w) (hrest : Stops 0 rest) :
    Reaches expression (w ++ rest) rest := by
  obtain ⟨e, he⟩ := word_expression_iff.mp h
  refine reaches_of_yields fun nodes functions faults => ?_
  obtain ⟨e', nodes', -, hread⟩ := (Expr.reread he.leveled he.spelled).regained (Nat.zero_le _)
    (by decide) hrest nodes functions faults
  exact ⟨e', nodes', functions, hread⟩

/-- A word for an expression starts like one. -/
theorem opening_of_word (h : Word .expression w) :
    ∃ t us, w = t :: us ∧ t.isOpening = true := by
  obtain ⟨e, he⟩ := word_expression_iff.mp h
  exact he.spelled.opening he.leveled

/-- A semicolon ends an expression, whatever stands behind it. -/
theorem reaches_terminated (cause : SyntaxCause) {stop : Token} (h : Word .expression w)
    (hstop : stop.isSymbol .semicolon = true) (rest : List Token) :
    Reaches (fun n => terminated n cause) (w ++ stop :: rest) rest :=
  (reaches_expression h (stops_of_isSymbol hstop rfl)).bind fun _ =>
    ends_expect hstop (reaches_pure _ _)

/-- An optional expression is read up to the symbol that it ends before, which neither starts nor
continues one. -/
theorem reaches_expressionUnless {symbol : Symbol} {stop : Token} (h : w = [] ∨ Word .expression w)
    (hstop : stop.isSymbol symbol = true) (hrank : symbol.rank? = none)
    (hopening : symbol ∉ Symbol.openings) :
    Reaches (fun n => expressionUnless n symbol) (w ++ stop :: rest) (stop :: rest) := by
  rcases h with rfl | h
  · exact ends_nextIs hstop (reaches_pure _ _)
  · have hread : Reaches expression (w ++ stop :: rest) (stop :: rest) :=
      reaches_expression h (stops_of_isSymbol hstop hrank)
    obtain ⟨t, us, rfl, ht⟩ := opening_of_word h
    exact ends_nextIs (Token.isSymbol_of_isOpening ht hopening)
      (hread.bind fun _ => reaches_pure _ _)

/-- A variable is read to its semicolon, with a value or without. -/
theorem reaches_variableDecl {name stop : Token} (hname : name.kind = .identifier)
    (hvalue : us = [] ∨ ∃ equals vs, us = equals :: vs ∧ equals.isSymbol .equal = true ∧
      Word .expression vs) (hstop : stop.isSymbol .semicolon = true) :
    Reaches variableDecl (name :: (us ++ stop :: rest)) rest := by
  have hinit : Reaches initialValue (us ++ stop :: rest) (stop :: rest) := by
    rcases hvalue with rfl | ⟨equals, vs, rfl, hequals, hvs⟩
    · refine ends_takeIf_none ?_ (reaches_pure _ _)
      intro t ht
      cases ht
      simp [Token.isSymbol, Token.isSymbol_iff.mp hstop]
    · refine ends_takeIf hequals ?_
      exact (reaches_expression hvs (stops_of_isSymbol hstop rfl)).bind fun _ => reaches_pure _ _
  simp only [funext variableDecl_eq]
  exact ends_expectName hname (hinit.bind fun _ => ends_expect hstop (reaches_pure _ _))

/-- Parameters are read up to the parenthesis, as long as they are not too many. -/
theorem reaches_parameters {close : Token} (hclose : close.isSymbol .rightParen = true) :
    ∀ (count : Nat) {name : Token} {names ts : List Token}, Names (name :: names) ts →
    count + (name :: names).length ≤ maxArguments →
    Reaches (fun n => parameters n count) (ts ++ close :: rest) (close :: rest)
  | count, name, [], _, ⟨_, rfl, hname, rfl⟩, hlength => by
    refine .succ ?_
    simp only [parameters_succ]
    refine ends_limit hlength (ends_expectName hname ?_)
    refine ends_takeIf_none ?_ (reaches_pure _ _)
    intro t ht
    cases ht
    simp [Token.isSymbol, Token.isSymbol_iff.mp hclose]
  | count, name, next :: names, _, ⟨_, rfl, hname, comma, us, rfl, hcomma, hnext, hafter⟩,
      hlength => by
    have hnames : Names (next :: names) (next :: us) := ⟨us, rfl, hnext, hafter⟩
    rw [List.length_cons] at hlength
    refine .succ ?_
    simp only [parameters_succ]
    refine ends_limit (by omega) (ends_expectName hname (ends_takeIf hcomma ?_))
    exact (reaches_parameters hclose (count + 1) hnames (by omega)).bind fun _ => reaches_pure _ _

theorem reaches_parameterList {close : Token} (h : us = [] ∨ Word .parameters us)
    (hclose : close.isSymbol .rightParen = true) :
    Reaches parameterList (us ++ close :: rest) (close :: rest) := by
  rcases h with rfl | h
  · exact ends_nextIs hclose (reaches_pure _ _)
  · obtain ⟨name, names, hlength, hnames⟩ := matches_parameters.mp (matches_of_word h)
    have hread : Reaches (fun n => parameters n 0) (us ++ close :: rest) (close :: rest) :=
      reaches_parameters hclose 0 hnames (by omega)
    obtain ⟨vs, rfl, hname, -⟩ := hnames
    exact ends_nextIs (b := false) (by simp [Token.isSymbol, hname]) hread

theorem reaches_conditionOr (condition : Option Expr) (ts : List Token) :
    Reaches (fun _ => conditionOr condition) ts ts := by
  cases condition with
  | some e => exact reaches_pure e ts
  | none => exact ends_newNode fun _ => reaches_pure _ _

/-! ## Conditionals without an `^e^` -/

/-- What comes after a success, if nothing comes after a fault. -/
def End.Resumes (more : List Token → End → Prop) : End → End → Prop
  | .ok us added, e => ∃ e', more us e' ∧ e = e'.after added
  | .fault f us added, e => e = .fault f us added

/--
Conditionals that are still without an `^e^`, as many as the number says, go on from the list of
tokens, the inner ones first.
-/
def Tails : Nat → List Token → End → Prop
  | 0, ts, e => e = .ok ts []
  | m + 1, ts, e => ((∀ t ∈ ts.head?, t.isSymbol .ifElse = false) ∧ Tails m ts e) ∨
    ∃ (keyword : Token) (us : List Token) (branch : End), ts = keyword :: us ∧
      keyword.isSymbol .ifElse = true ∧ Ends statement us branch ∧ branch.Resumes (Tails m) e

/-- Earlier faults stay in front, wherever reading resumes. -/
theorem End.Resumes.after {more : List Token → End → Prop} {e e' : End} (h : e.Resumes more e')
    (earlier : List Fault) : (e.after earlier).Resumes more (e'.after earlier) := by
  cases e with
  | ok us added =>
    obtain ⟨e'', hmore, rfl⟩ := h
    exact ⟨e'', hmore, End.after_after _ _ _⟩
  | fault f us added =>
    obtain rfl := h
    rfl

/-- Where no conditional goes on, reading has come to its end. -/
theorem End.Resumes.eq {e e' : End} (h : e.Resumes (Tails 0) e') : e' = e := by
  cases e with
  | ok us added =>
    obtain ⟨_, rfl, rfl⟩ := h
    simp only [End.after, List.append_nil]
  | fault f us added => exact h

/-- The inner conditionals go first. -/
theorem Tails.split {m n : Nat} (h : Tails (m + n) ts e) :
    ∃ inner, Tails m ts inner ∧ inner.Resumes (Tails n) e := by
  induction m generalizing ts e with
  | zero =>
    rw [Nat.zero_add] at h
    exact ⟨.ok ts [], rfl, e, h, e.after_nil.symm⟩
  | succ m ih =>
    rw [Nat.succ_add] at h
    rcases h with ⟨hts, h⟩ | ⟨keyword, us, branch, rfl, hkeyword, hbranch, hresumes⟩
    · obtain ⟨inner, hinner, hown⟩ := ih h
      exact ⟨inner, Or.inl ⟨hts, hinner⟩, hown⟩
    · cases branch with
      | fault f vs added =>
        obtain rfl := hresumes
        exact ⟨_, Or.inr ⟨keyword, us, _, rfl, hkeyword, hbranch, rfl⟩, rfl⟩
      | ok vs added =>
        obtain ⟨e', htails, rfl⟩ := hresumes
        obtain ⟨inner, hinner, hown⟩ := ih htails
        exact ⟨inner.after added,
          Or.inr ⟨keyword, us, _, rfl, hkeyword, hbranch, inner, hinner, rfl⟩, hown.after added⟩

/-- Where no `^e^` stands, none of them goes on. -/
theorem tails_self (h : ∀ t ∈ ts.head?, t.isSymbol .ifElse = false) (m : Nat) :
    Tails m ts (.ok ts []) := by
  induction m with
  | zero => rfl
  | succ m ih => exact Or.inl ⟨h, ih⟩

/-- The last of them may go on after its own branch. -/
theorem ends_elseClause {k : Nat → Option Token → Parser α} (h : Tails 1 ts e)
    (hnone : ∀ us, Reaches (fun n => k n none) us us)
    (hsome : ∀ t us e, Ends statement us e → Ends (fun n => k n (some t)) us e) :
    Ends (fun n => take? .ifElse >>= k n) ts e := by
  rcases h with ⟨hts, rfl⟩ | ⟨keyword, us, branch, rfl, hkeyword, hbranch, hresumes⟩
  · exact ends_takeIf_none hts (hnone ts)
  · obtain rfl := hresumes.eq
    exact ends_takeIf hkeyword (hsome keyword us e hbranch)

/-! ## Statements -/

/-- There is a first token, and it is none of the symbols. -/
def Starts (symbols : List Symbol) (w : List Token) : Prop :=
  ∃ t us, w = t :: us ∧ ∀ s ∈ symbols, t.isSymbol s = false

theorem Starts.mono {symbols symbols' : List Symbol} (h : Starts symbols w)
    (hsub : ∀ s ∈ symbols', s ∈ symbols) : Starts symbols' w := by
  obtain ⟨t, us, hw, ht⟩ := h
  exact ⟨t, us, hw, fun s hs => ht s (hsub s hs)⟩

theorem Starts.append {symbols : List Symbol} (h : Starts symbols w) (rest : List Token) :
    Starts symbols (w ++ rest) := by
  obtain ⟨t, us, rfl, ht⟩ := h
  exact ⟨t, us ++ rest, rfl, ht⟩

/-- The symbols that a word does not start with are not next, whatever stands behind it. -/
theorem Starts.head? {symbols : List Symbol} {s : Symbol} (h : Starts symbols w)
    (hs : s ∈ symbols) : ∀ t ∈ (w ++ rest).head?, t.isSymbol s = false := by
  obtain ⟨t, us, rfl, ht⟩ := h
  intro t' ht'
  cases ht'
  exact ht s hs

/-- A word starts with one symbol only. -/
theorem starts_of_isSymbol {symbols : List Symbol} {t : Token} {s : Symbol}
    (h : t.isSymbol s = true) (hs : s ∉ symbols) : Starts symbols (t :: us) := by
  refine ⟨t, us, rfl, fun s' hs' => ?_⟩
  rw [Bool.eq_false_iff]
  intro h'
  rw [Token.isSymbol_iff] at h h'
  rw [h] at h'
  cases h'
  exact hs hs'

/-- The symbols with which no statement starts, though a declaration or what follows one may. -/
def foreign : List Symbol := [.function, .var, .ifElse, .blockEnd]

/-- The word leads the parser on to the conditionals in it that are still without an `^e^`. -/
def Led (p : Nat → Parser Stmt) (w : List Token) : Prop :=
  ∃ m, ∀ rest e, Tails m rest e → Ends p (w ++ rest) e

/-- A word that is read to its end has no such conditional. -/
theorem led_of_reaches {p : Nat → Parser Stmt} (h : ∀ rest, Reaches p (w ++ rest) rest) :
    Led p w := by
  refine ⟨0, ?_⟩
  rintro rest _ rfl
  exact h rest

/-- Where the words of a rule lead the parser. -/
def Accepted : Nonterminal → List Token → Prop
  | .declaration, w => Starts [.ifElse, .blockEnd] w ∧ Led declaration w
  | .statement, w | .exprStmt, w | .printStmt, w | .forStmt, w | .whileStmt, w | .ifStmt, w
  | .returnStmt, w => Starts foreign w ∧ Led statement w
  | .block, w => ∃ start us, w = start :: us ∧ start.isSymbol .blockStart = true ∧
    ∀ rest, Reaches block (us ++ rest) rest
  | .funDecl, w => ∃ start us, w = start :: us ∧ start.isSymbol .function = true ∧
    ∀ rest, Reaches functionDecl (us ++ rest) rest
  | .varDecl, w => ∃ start us, w = start :: us ∧ start.isSymbol .var = true ∧
    ∀ rest, Reaches variableDecl (us ++ rest) rest
  | _, _ => True

/-- The statement that a token starts is read from the tokens behind it. -/
theorem ends_statement {t : Token} {symbol : Symbol} (ht : t.isSymbol symbol = true)
    (hmem : symbol ∈ [.forLoop, .ifThen, .print, .ret, .whileLoop, .blockStart])
    (h : Ends (fun n => statementFrom n t) ts e) : Ends statement (t :: ts) e := by
  refine .succ ?_
  simp only [statement_succ]
  exact ends_takeIf (List.any_eq_true.mpr ⟨symbol, hmem, ht⟩) h

/-- Nothing that starts an expression chooses another statement. -/
theorem ends_statement_none (hts : ∃ t us, ts = t :: us ∧ t.isOpening = true)
    (h : Ends (fun n => terminated n .expressionEnd) ts e) : Ends statement ts e := by
  obtain ⟨t, us, rfl, ht⟩ := hts
  have hother : ∀ s ∈ [Symbol.forLoop, .ifThen, .print, .ret, .whileLoop, .blockStart],
      s ∉ Symbol.openings := by decide
  refine .succ ?_
  simp only [statement_succ]
  refine ends_takeIf_none ?_ (h.followed fun _ => reaches_pure _)
  rintro _ ⟨⟩
  rw [List.any_eq_false]
  intro s hs
  rw [Token.isSymbol_of_isOpening ht (hother s hs)]
  exact Bool.false_ne_true

/-- What starts like an expression is read as a statement of one. -/
theorem ends_exprStmt (h : Word .expression us)
    (hend : Ends (fun n => terminated n .expressionEnd) (us ++ ts) e) :
    Ends statement (us ++ ts) e := by
  obtain ⟨t, vs, rfl, ht⟩ := opening_of_word h
  exact ends_statement_none ⟨t, vs ++ ts, rfl, ht⟩ hend

theorem ends_printStmt {start : Token} (hstart : start.isSymbol .print = true)
    (hend : Ends (fun n => terminated n .printEnd) ts e) : Ends statement (start :: ts) e := by
  refine ends_statement hstart (by decide) ?_
  simp only [statementFrom, Token.symbol?, Token.isSymbol_iff.mp hstart]
  exact hend.followed fun _ => reaches_pure _

theorem ends_returnStmt {start : Token} (hstart : start.isSymbol .ret = true)
    (hend : Ends (fun n => do
      let value ← expressionUnless n .semicolon
      let _ ← expect .semicolon .returnEnd
      return Stmt.ret start value) ts e) : Ends statement (start :: ts) e := by
  refine ends_statement hstart (by decide) ?_
  simp only [statementFrom, Token.symbol?, Token.isSymbol_iff.mp hstart]
  exact hend

theorem accepted_exprStmt {stop : Token} (h : Word .expression us)
    (hstop : stop.isSymbol .semicolon = true) :
    Starts foreign (us ++ [stop]) ∧ Led statement (us ++ [stop]) := by
  have hforeign : ∀ s ∈ foreign, s ∉ Symbol.openings := by decide
  refine ⟨?_, led_of_reaches fun rest => ?_⟩
  · obtain ⟨t, vs, rfl, ht⟩ := opening_of_word h
    exact ⟨t, vs ++ [stop], rfl, fun s hs => Token.isSymbol_of_isOpening ht (hforeign s hs)⟩
  · rw [List.append_assoc]
    exact ends_exprStmt h (reaches_terminated .expressionEnd h hstop rest)

theorem accepted_printStmt {start stop : Token} (hstart : start.isSymbol .print = true)
    (h : Word .expression us) (hstop : stop.isSymbol .semicolon = true) :
    Starts foreign (start :: (us ++ [stop])) ∧ Led statement (start :: (us ++ [stop])) := by
  refine ⟨starts_of_isSymbol hstart (by decide), led_of_reaches fun rest => ?_⟩
  simp only [List.cons_append, List.append_assoc, List.nil_append]
  exact ends_printStmt hstart (reaches_terminated _ h hstop rest)

/-- A `^r^` needs no value, and no conditional is open behind its semicolon. -/
theorem accepted_returnStmt {start stop : Token} (hstart : start.isSymbol .ret = true)
    (h : us = [] ∨ Word .expression us) (hstop : stop.isSymbol .semicolon = true) :
    Starts foreign (start :: (us ++ [stop])) ∧ Led statement (start :: (us ++ [stop])) := by
  refine ⟨starts_of_isSymbol hstart (by decide), led_of_reaches fun rest => ?_⟩
  simp only [List.cons_append, List.append_assoc, List.nil_append]
  refine ends_returnStmt hstart ?_
  exact (reaches_expressionUnless h hstop rfl (by decide)).bind fun _ =>
    ends_expect hstop (reaches_pure _ _)

/-- A block is read to its brace, and so no conditional in it goes on behind it. -/
theorem accepted_of_block (h : Accepted .block w) : Starts foreign w ∧ Led statement w := by
  obtain ⟨start, us, rfl, hstart, hread⟩ := h
  refine ⟨starts_of_isSymbol hstart (by decide), led_of_reaches fun rest => ?_⟩
  refine ends_statement hstart (by decide) ?_
  simp only [statementFrom, Token.symbol?, Token.isSymbol_iff.mp hstart]
  exact (hread rest).bind fun _ => reaches_pure _ _

/--
The tokens lead the parser on to a statement behind them, and after it to as many conditionals
without an `^e^` as the number says.
-/
def Leads (us : List Token) (m : Nat) : Prop :=
  ∀ ⦃ts : List Token⦄ ⦃body e : End⦄, Ends statement ts body → body.Resumes (Tails m) e →
    Ends statement (us ++ ts) e

/-- What leads to a body leads on to the conditionals that are open in that body. -/
theorem Leads.led {m : Nat} {vs : List Token} (h : Leads us m) (hbody : Led statement vs) :
    Led statement (us ++ vs) := by
  obtain ⟨k, hbody⟩ := hbody
  refine ⟨k + m, fun rest e htails => ?_⟩
  obtain ⟨body, hinner, hown⟩ := htails.split
  rw [List.append_assoc]
  exact h (hbody rest body hinner) hown

/-- The first clause of a `^o^` loop is read to its semicolon, which it may consist of. -/
theorem reaches_initializer
    (h : (Word .varDecl us ∧ Accepted .varDecl us) ∨ Word .exprStmt us ∨
      ∃ t, us = [t] ∧ t.isSymbol .semicolon = true) : Reaches initializer (us ++ rest) rest := by
  rcases h with ⟨-, start, vs, rfl, hstart, hread⟩ | h | ⟨t, rfl, ht⟩
  · refine ends_takeIf_none ?_ (ends_takeIf hstart ?_)
    · intro t ht
      cases ht
      simp [Token.isSymbol, Token.isSymbol_iff.mp hstart]
    · exact (hread rest).bind fun _ => reaches_pure _ _
  · obtain ⟨vs, stop, rfl, hvs, hstop⟩ := matches_exprStmt.mp (matches_of_word h)
    have hread := reaches_terminated .expressionEnd hvs hstop rest
    obtain ⟨t, ws, rfl, ht⟩ := opening_of_word hvs
    simp only [List.append_assoc, List.singleton_append]
    refine ends_takeIf_none ?_ (ends_takeIf_none ?_ (hread.bind fun _ => reaches_pure _ _))
    · intro t' ht'
      cases ht'
      exact Token.isSymbol_of_isOpening ht (by decide)
    · intro t' ht'
      cases ht'
      exact Token.isSymbol_of_isOpening ht (by decide)
  · exact ends_takeIf ht (reaches_pure _ _)

section Heads

variable {start paren close : Token} {vs ws : List Token}
  (hparen : paren.isSymbol .leftParen = true) (hclose : close.isSymbol .rightParen = true)
include hparen hclose

/-- The head of a loop leads to its body. -/
theorem leads_whileLoop (hstart : start.isSymbol .whileLoop = true) (h : Word .expression us) :
    Leads (start :: paren :: (us ++ [close])) 0 := by
  intro ts body e hbody hend
  obtain rfl := hend.eq
  simp only [List.cons_append, List.append_assoc, List.nil_append]
  refine ends_statement hstart (by decide) ?_
  simp only [statementFrom, Token.symbol?, Token.isSymbol_iff.mp hstart]
  refine .succ ?_
  simp only [whileLoop_succ]
  refine ends_expect hparen ?_
  refine (reaches_expression h (stops_of_isSymbol hclose rfl)).bind fun _ => ?_
  exact ends_expect hclose (hbody.followed fun _ => reaches_pure _)

theorem accepted_whileStmt (hstart : start.isSymbol .whileLoop = true) (h : Word .expression us)
    (hbody : Led statement vs) :
    Starts foreign (start :: paren :: (us ++ close :: vs)) ∧
      Led statement (start :: paren :: (us ++ close :: vs)) := by
  have hled := (leads_whileLoop hparen hclose hstart h).led hbody
  simp only [List.cons_append, List.append_assoc, List.nil_append] at hled
  exact ⟨starts_of_isSymbol hstart (by decide), hled⟩

/-- The head of a `^o^` loop leads to its body, whichever clauses are left out. -/
theorem leads_forLoop {stop : Token} (hstart : start.isSymbol .forLoop = true)
    (hinit : (Word .varDecl us ∧ Accepted .varDecl us) ∨ Word .exprStmt us ∨
      ∃ t, us = [t] ∧ t.isSymbol .semicolon = true)
    (hcondition : vs = [] ∨ Word .expression vs) (hstop : stop.isSymbol .semicolon = true)
    (hincrement : ws = [] ∨ Word .expression ws) :
    Leads (start :: paren :: (us ++ (vs ++ stop :: (ws ++ [close])))) 0 := by
  intro ts body e hbody hend
  obtain rfl := hend.eq
  simp only [List.cons_append, List.append_assoc, List.nil_append]
  refine ends_statement hstart (by decide) ?_
  simp only [statementFrom, Token.symbol?, Token.isSymbol_iff.mp hstart]
  refine .succ ?_
  simp only [forLoop_succ]
  refine ends_expect hparen ((reaches_initializer hinit).bind fun _ => ?_)
  refine (reaches_expressionUnless hcondition hstop rfl (by decide)).bind fun condition => ?_
  refine ends_expect hstop ?_
  refine (reaches_expressionUnless hincrement hclose rfl (by decide)).bind fun _ => ?_
  refine ends_expect hclose (hbody.followed fun _ us => ?_)
  exact (reaches_conditionOr condition us).bind fun _ => reaches_pure _ _

theorem accepted_forStmt {stop : Token} {xs : List Token} (hstart : start.isSymbol .forLoop = true)
    (hinit : (Word .varDecl us ∧ Accepted .varDecl us) ∨ Word .exprStmt us ∨
      ∃ t, us = [t] ∧ t.isSymbol .semicolon = true)
    (hcondition : vs = [] ∨ Word .expression vs) (hstop : stop.isSymbol .semicolon = true)
    (hincrement : ws = [] ∨ Word .expression ws) (hbody : Led statement xs) :
    Starts foreign (start :: paren :: (us ++ (vs ++ stop :: (ws ++ close :: xs)))) ∧
      Led statement (start :: paren :: (us ++ (vs ++ stop :: (ws ++ close :: xs)))) := by
  have hled := (leads_forLoop hparen hclose hstart hinit hcondition hstop hincrement).led hbody
  simp only [List.cons_append, List.append_assoc, List.nil_append] at hled
  exact ⟨starts_of_isSymbol hstart (by decide), hled⟩

/-- A conditional is read up to its first branch, and goes on after it like any other. -/
theorem leads_ifThen (hstart : start.isSymbol .ifThen = true) (h : Word .expression us) :
    Leads (start :: paren :: (us ++ [close])) 1 := by
  intro ts thenEnd e hthen htails
  simp only [List.cons_append, List.append_assoc, List.nil_append]
  refine ends_statement hstart (by decide) ?_
  simp only [statementFrom, Token.symbol?, Token.isSymbol_iff.mp hstart]
  refine .succ ?_
  simp only [branch_succ]
  refine ends_expect hparen ?_
  refine (reaches_expression h (stops_of_isSymbol hclose rfl)).bind fun _ => ?_
  refine ends_expect hclose ?_
  cases thenEnd with
  | fault f vs added =>
    obtain rfl := htails
    exact hthen.bind_fault _
  | ok vs added =>
    obtain ⟨e', htails, rfl⟩ := htails
    refine hthen.bind fun _ => ends_elseClause htails (reaches_pure _) fun _ _ _ helse => ?_
    exact helse.followed fun _ => reaches_pure _

/-- The keyword goes to the innermost conditional of the first branch that waits for one. -/
theorem leads_ifElse {keyword : Token} (hstart : start.isSymbol .ifThen = true)
    (h : Word .expression us) (hthen : Led statement vs)
    (hkeyword : keyword.isSymbol .ifElse = true) :
    ∃ m, Leads (start :: paren :: (us ++ close :: (vs ++ [keyword]))) m := by
  obtain ⟨m, hthen⟩ := hthen
  refine ⟨m, fun ts branch e hbranch hothers => ?_⟩
  have htaken : Tails (m + 1) (keyword :: ts) e :=
    Or.inr ⟨keyword, ts, branch, rfl, hkeyword, hbranch, hothers⟩
  obtain ⟨inner, hinner, hown⟩ := htaken.split
  have hread := leads_ifThen hparen hclose hstart h (hthen _ inner hinner) hown
  simpa only [List.cons_append, List.append_assoc, List.nil_append] using hread

/-- A conditional without an `^e^` is one more that is open. An `^e^` closes the innermost open one,
which may be in the first branch. -/
theorem accepted_ifStmt (hstart : start.isSymbol .ifThen = true) (h : Word .expression us)
    (hthen : Led statement vs) (helse : ws = [] ∨ ∃ keyword xs, ws = keyword :: xs ∧
      keyword.isSymbol .ifElse = true ∧ Led statement xs) :
    Starts foreign (start :: paren :: (us ++ close :: (vs ++ ws))) ∧
      Led statement (start :: paren :: (us ++ close :: (vs ++ ws))) := by
  refine ⟨starts_of_isSymbol hstart (by decide), ?_⟩
  rcases helse with rfl | ⟨keyword, xs, rfl, hkeyword, helse⟩
  · have hled := (leads_ifThen hparen hclose hstart h).led hthen
    simpa only [List.cons_append, List.append_assoc, List.nil_append, List.append_nil] using hled
  · obtain ⟨m, hleads⟩ := leads_ifElse hparen hclose hstart h hthen hkeyword
    have hled := hleads.led helse
    simpa only [List.cons_append, List.append_assoc, List.nil_append] using hled

end Heads

/-! ## Declarations -/

/-- A row of declarations does not start with the symbol if what follows the row does not. -/
theorem starts_flatten {words : List (List Token)} {s : Symbol}
    (h : ∀ u ∈ words, Starts [.ifElse, .blockEnd] u) (hs : s ∈ [Symbol.ifElse, .blockEnd])
    (hrest : ∀ t ∈ rest.head?, t.isSymbol s = false) :
    ∀ t ∈ (words.flatten ++ rest).head?, t.isSymbol s = false := by
  cases words with
  | nil => exact hrest
  | cons u words =>
    rw [List.flatten_cons, List.append_assoc]
    exact (h u List.mem_cons_self).head? hs

/-- The parser reads a declaration, or drops it at a fault, and goes on behind it. -/
def Loops (p : Nat → Parser α) : Prop :=
  ∀ ⦃ts : List Token⦄ ⦃first e : End⦄, Starts [.blockEnd] ts → Ends declaration ts first →
    Ends p first.resume e → Ends p ts (e.after first.recorded)

/-- The statements of a block are read one by one. -/
theorem block_loops : Loops block := by
  intro ts first e hts hfirst hothers
  obtain ⟨t, us, rfl, ht⟩ := hts
  refine .succ ?_
  simp only [block_succ]
  refine ends_peek? ?_
  simp only [List.head?_cons, ht .blockEnd (by simp), Bool.false_eq_true, if_false]
  exact hfirst.recovering.bind fun _ => hothers.followed fun _ => reaches_pure _

/-- So are the declarations of a source. -/
theorem declarations_loops : Loops declarations := by
  intro ts first e hts hfirst hothers
  obtain ⟨t, us, rfl, -⟩ := hts
  refine .succ ?_
  simp only [declarations_succ]
  refine ends_peek? ?_
  simp only [List.head?_cons]
  exact hfirst.recovering.bind fun _ => hothers.followed fun _ => reaches_pure _

/-- A row of declarations is read up to what follows it. -/
theorem Loops.words {p : Nat → Parser α} (hp : Loops p) {words : List (List Token)}
    (h : ∀ u ∈ words, Accepted .declaration u)
    (hrest : ∀ t ∈ rest.head?, t.isSymbol .ifElse = false) (hend : Ends p rest e) :
    Ends p (words.flatten ++ rest) e := by
  induction words with
  | nil => exact hend
  | cons u words ih =>
    obtain ⟨hstarts, m, hread⟩ := h u List.mem_cons_self
    have hothers := ih fun v hv => h v (List.mem_cons_of_mem _ hv)
    have hnext : ∀ t ∈ (words.flatten ++ rest).head?, t.isSymbol .ifElse = false :=
      starts_flatten (fun v hv => (h v (List.mem_cons_of_mem _ hv)).1) (by simp) hrest
    have hfirst := hread _ _ (tails_self hnext m)
    have hall := hp ((hstarts.append _).mono (by simp)) hfirst hothers
    rwa [End.recorded, End.after_nil, ← List.append_assoc, ← List.flatten_cons] at hall

/-- A block is read to its brace, at which no conditional in it can go on. -/
theorem reaches_block {words : List (List Token)} {stop : Token}
    (h : ∀ u ∈ words, Accepted .declaration u) (hstop : stop.isSymbol .blockEnd = true) :
    Reaches block (words.flatten ++ stop :: rest) rest := by
  refine block_loops.words h ?_ (.succ ?_)
  · intro t ht
    cases ht
    simp [Token.isSymbol, Token.isSymbol_iff.mp hstop]
  · simp only [block_succ]
    refine ends_peek? ?_
    simp only [List.head?_cons, hstop, if_true]
    exact ends_expect hstop (reaches_pure _ _)

theorem reaches_declarations_nil : Reaches declarations [] [] := by
  refine .succ ?_
  simp only [declarations_succ]
  exact ends_peek? (reaches_pure [] [])

/-- A source of words for declarations is read to its end. -/
theorem reaches_declarations {words : List (List Token)}
    (h : ∀ u ∈ words, Accepted .declaration u) (nodes functions : Nat) (faults : List Fault) :
    ∃ slots nodes' functions', Yields declarations ⟨words.flatten, nodes, functions, faults⟩ slots
      ⟨[], nodes', functions', faults⟩ := by
  have hread : Reaches declarations (words.flatten ++ []) [] :=
    declarations_loops.words h (by simp) reaches_declarations_nil
  rw [List.append_nil] at hread
  exact hread.yields nodes functions faults

/-- A function is read to the brace of its body. -/
theorem accepted_funDecl {start name paren close : Token} {vs : List Token}
    (hstart : start.isSymbol .function = true) (hname : name.kind = .identifier)
    (hparen : paren.isSymbol .leftParen = true) (hparams : us = [] ∨ Word .parameters us)
    (hclose : close.isSymbol .rightParen = true) (hbody : Accepted .block vs) :
    Accepted .funDecl (start :: name :: paren :: (us ++ close :: vs)) := by
  obtain ⟨first, body, rfl, hfirst, hread⟩ := hbody
  refine ⟨start, _, rfl, hstart, fun rest => .succ ?_⟩
  simp only [functionDecl_succ, List.cons_append, List.append_assoc]
  refine ends_expectName hname (ends_expect hparen ?_)
  refine (reaches_parameterList hparams hclose).bind fun _ => ?_
  refine ends_expect hclose (ends_expect hfirst ((hread rest).bind fun _ => ?_))
  exact ends_newFunction fun _ => reaches_pure _ _

/-- A declaration is told from a statement by its first token. -/
theorem accepted_declaration
    (h : Accepted .funDecl w ∨ Accepted .varDecl w ∨ Accepted .statement w) :
    Accepted .declaration w := by
  rcases h with ⟨start, us, rfl, hstart, hread⟩ | ⟨start, us, rfl, hstart, hread⟩ |
    ⟨hstarts, m, hread⟩
  · refine ⟨starts_of_isSymbol hstart (by decide), led_of_reaches fun rest => .succ ?_⟩
    simp only [declaration_succ]
    exact ends_takeIf hstart (hread rest)
  · refine ⟨starts_of_isSymbol hstart (by decide), led_of_reaches fun rest => .succ ?_⟩
    simp only [declaration_succ]
    refine ends_takeIf_none ?_ (ends_takeIf hstart (hread rest))
    have hstarts : Starts [.function] (start :: us) := starts_of_isSymbol hstart (by decide)
    exact hstarts.head? (by simp)
  · refine ⟨hstarts.mono (by decide), m, fun rest rest' htails => .succ ?_⟩
    simp only [declaration_succ]
    refine ends_takeIf_none (hstarts.head? (by decide)) ?_
    exact ends_takeIf_none (hstarts.head? (by decide)) (hread rest rest' htails)

/-- Every word leads the parser where its rule says. -/
theorem accepted_of_word {n : Nonterminal} (h : Word n w) : Accepted n w := by
  refine Word.induct ?_ h
  intro n w h
  cases n with
  | declaration =>
    rcases matches_declaration.mp h with h | h | h
    · exact accepted_declaration (Or.inl h.2)
    · exact accepted_declaration (Or.inr (Or.inl h.2))
    · exact accepted_declaration (Or.inr (Or.inr h.2))
  | statement =>
    rcases matches_statement.mp h with h | h | h | h | h | h | h
    · exact h.2
    · exact h.2
    · exact h.2
    · exact h.2
    · exact h.2
    · exact accepted_of_block h.2
    · exact h.2
  | exprStmt =>
    obtain ⟨us, stop, rfl, hus, hstop⟩ := matches_exprStmt.mp h
    exact accepted_exprStmt hus.1 hstop
  | printStmt =>
    obtain ⟨start, us, stop, rfl, hstart, hus, hstop⟩ := matches_printStmt.mp h
    exact accepted_printStmt hstart hus.1 hstop
  | returnStmt =>
    obtain ⟨start, us, stop, rfl, hstart, hus, hstop⟩ := matches_returnStmt.mp h
    exact accepted_returnStmt hstart (hus.imp_right fun hus => hus.1) hstop
  | whileStmt =>
    obtain ⟨start, paren, us, close, vs, rfl, hstart, hparen, hus, hclose, hvs⟩ :=
      matches_whileStmt.mp h
    exact accepted_whileStmt hparen hclose hstart hus.1 hvs.2.2
  | ifStmt =>
    obtain ⟨start, paren, us, close, vs, ws, rfl, hstart, hparen, hus, hclose, hvs, hws⟩ :=
      matches_ifStmt.mp h
    refine accepted_ifStmt hparen hclose hstart hus.1 hvs.2.2 (hws.imp_right ?_)
    rintro ⟨keyword, xs, rfl, hkeyword, hxs⟩
    exact ⟨keyword, xs, rfl, hkeyword, hxs.2.2⟩
  | forStmt =>
    obtain ⟨start, paren, us, vs, stop, ws, close, xs, rfl, hstart, hparen, hus, hvs, hstop, hws,
      hclose, hxs⟩ := matches_forStmt.mp h
    exact accepted_forStmt hparen hclose hstart (hus.imp_right (Or.imp_left fun hus => hus.1))
      (hvs.imp_right fun hvs => hvs.1) hstop (hws.imp_right fun hws => hws.1) hxs.2.2
  | block =>
    obtain ⟨start, us, stop, rfl, hstart, hus, hstop⟩ := matches_block.mp h
    refine ⟨start, _, rfl, hstart, fun rest => ?_⟩
    rw [List.append_assoc]
    exact reaches_block (fun u hu => (hus u hu).2) hstop
  | varDecl =>
    obtain ⟨start, name, us, stop, rfl, hstart, hname, hus, hstop⟩ := matches_varDecl.mp h
    refine ⟨start, _, rfl, hstart, fun rest => ?_⟩
    rw [List.cons_append, List.append_assoc]
    refine reaches_variableDecl hname (hus.imp_right ?_) hstop
    rintro ⟨equals, vs, rfl, hequals, hvs⟩
    exact ⟨equals, vs, rfl, hequals, hvs.1⟩
  | funDecl =>
    obtain ⟨start, name, paren, us, close, vs, rfl, hstart, hname, hparen, hus, hclose, hvs⟩ :=
      matches_funDecl.mp h
    exact accepted_funDecl hstart hname hparen (hus.imp_right fun hus => hus.1) hclose hvs.2
  | _ => trivial

/-! ## Programs -/

/-- What is read with some fuel is read with the fuel for the list of tokens. -/
theorem declarations_of_yields {nodes functions : Nat} {faults : List Fault}
    {slots : List (Option Stmt)} {s : State}
    (h : Yields declarations ⟨ts, nodes, functions, faults⟩ slots s) :
    declarations (fuelFor ts) ⟨ts, nodes, functions, faults⟩ = .ok slots s := by
  obtain ⟨least, h⟩ := h
  exact declarations_fuelFor_eq (h least (Nat.le_refl least))

/--
The parser accepts exactly its grammar: for a list of tokens with the mark of the end at its end
only, no error is reported if and only if the tokens before the mark are a word of `declaration*`.
Then every slot is filled, and the declarations in them, with those of all blocks inside, are
spelled in full by the tokens, so none was dropped.
-/
theorem parse_accepts_grammar (w : List Token) (stop : Token) (nodes functions : Nat)
    (hw : ∀ t ∈ w, t.isEof = false) (hstop : stop.isEof = true) :
    ((parse (w ++ [stop]) nodes functions).errors = [] ↔
      Derives (.many (.nonterminal .declaration)) w) ∧
    ((parse (w ++ [stop]) nodes functions).errors = [] → ∃ program : List Stmt,
      (parse (w ++ [stop]) nodes functions).statements = program.map some ∧
        Stmt.SpelledAll program w) := by
  obtain ⟨slots, s, hread, hrest⟩ := declarations_fuelFor w nodes functions []
  have hparse : parse (w ++ [stop]) nodes functions =
      ⟨slots, s.faults.map (Fault.locate stop), s.nodes, s.functions⟩ := by
    rw [parse, splitAtEnd_concat hw hstop]
    simp only [hread]
  have hspelled : s.faults = [] → ∃ program : List Stmt, slots = program.map some ∧
      Stmt.SpelledAll program w := by
    intro hfaults
    have hreads := declarations_reads (fuelFor w) ⟨w, nodes, functions, []⟩
    rw [hread] at hreads
    obtain ⟨ts, hts, program, hslots, hprogram⟩ := hreads.2 (by rw [hfaults])
    obtain rfl : w = ts := by rwa [hrest, List.append_nil] at hts
    exact ⟨program, hslots, hprogram⟩
  rw [hparse]
  simp only [List.map_eq_nil_iff]
  refine ⟨⟨fun hfaults => ?_, fun hderives => ?_⟩, hspelled⟩
  · obtain ⟨program, -, hprogram⟩ := hspelled hfaults
    obtain ⟨words, rfl, hwords⟩ := words_of_spelledAll hprogram
    exact .many hwords
  · obtain ⟨words, hwords⟩ : ∃ words : List (List Token), w = words.flatten ∧
        ∀ u ∈ words, Word .declaration u := by
      cases hderives with
      | many h => exact ⟨_, rfl, h⟩
    obtain ⟨rfl, hwords⟩ := hwords
    obtain ⟨slots', nodes', functions', hyields⟩ :=
      reaches_declarations (fun u hu => accepted_of_word (hwords u hu)) nodes functions []
    rw [declarations_of_yields hyields] at hread
    obtain ⟨-, rfl⟩ := Outcome.ok.inj hread
    rfl

/-- A conditional in a conditional with one `^e^` for both, which starts a block. -/
def danglingTokens : List Token :=
  [Symbol.ifThen.token, Symbol.leftParen.token, Symbol.yes.token, Symbol.rightParen.token,
    Symbol.ifThen.token, Symbol.leftParen.token, Symbol.no.token, Symbol.rightParen.token,
    Symbol.print.token, Symbol.nil.token, Symbol.semicolon.token,
    Symbol.ifElse.token, Symbol.blockStart.token, Symbol.var.token, ⟨.identifier, "x", 1⟩,
    Symbol.semicolon.token, Symbol.blockEnd.token]

/-- The tokens are a word of the grammar, and the tree that is read for them has all of them. -/
theorem parse_accepts_grammar_dangling :
    Derives (.many (.nonterminal .declaration)) danglingTokens ∧
      ∃ program : List Stmt,
        (parse (danglingTokens ++ [⟨.eof, "", 1⟩]) 0 0).statements = program.map some ∧
          Stmt.SpelledAll program danglingTokens := by
  have haccepts := parse_accepts_grammar danglingTokens ⟨.eof, "", 1⟩ 0 0 (by decide) rfl
  have herrors : (parse (danglingTokens ++ [⟨.eof, "", 1⟩]) 0 0).errors = [] := by decide +kernel
  exact ⟨haccepts.1.mp herrors, haccepts.2 herrors⟩

end Nya.Parse
