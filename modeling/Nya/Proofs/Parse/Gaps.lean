import Nya.Proofs.Grammar.Joins
import Nya.Proofs.Parse.Frames
import Nya.Proofs.Parse.Isolation

/-!
# A semicolon that is missing

Where a declaration has come to a semicolon and another token stands there, one of two things
happens. As a rule the declaration has a fault at this token. But the tokens that follow may be an
expression that goes on with what was read: then the two are one declaration, and nothing is wrong.

`gap_begun` tells the cases apart, and `Simple.skipped` says how much is dropped after the fault if
a simple declaration follows.
-/

namespace Nya.Parse

open Grammar

variable {α : Type} {us vs q rest b d : List Token} {e : End}

/-! ## Expressions that do not go on -/

/-- The next token does not go on with an expression, and it is no semicolon. -/
def Parted (q : List Token) : Prop :=
  ∀ t ∈ q.head?, t.rank? = none ∧ t.isSymbol .semicolon = false

theorem Parted.stops (h : Parted q) : Stops 0 q := by
  intro t ht r hr
  rw [(h t ht).1] at hr
  cases hr

theorem Parted.semicolon (h : Parted q) : ∀ t ∈ q.head?, t.isSymbol .semicolon = false :=
  fun t ht => (h t ht).2

theorem ends_terminated_fault (cause : SyntaxCause) (h : Word .expression us) (hq : Parted q) :
    Ends (fun n => terminated n cause) (us ++ q) (.fault ⟨q.head?, cause⟩ q []) :=
  (reaches_expression h hq.stops).bind fun _ => ends_expect_fault _ hq.semicolon

theorem ends_level_fault (h : Ends unary q (.fault ⟨q.head?, .expression⟩ q []))
    (ls : List Level) : Ends (fun n => level n ls) q (.fault ⟨q.head?, .expression⟩ q []) := by
  induction ls with
  | nil =>
    refine .succ ?_
    simp only [level_nil]
    exact h
  | cons l tighter ih =>
    refine .succ ?_
    simp only [level_cons]
    exact ih.bind_fault _

/-- Where no expression starts there is none. -/
theorem ends_expression_fault (hq : ∀ t ∈ q.head?, t.isOpening = false) :
    Ends expression q (.fault ⟨q.head?, .expression⟩ q []) := by
  have hsymbol : ∀ {s}, s ∈ Symbol.openings → ∀ t ∈ q.head?, t.isSymbol s = false := by
    intro s hs t ht
    refine Bool.eq_false_iff.mpr fun hts => ?_
    exact Bool.false_ne_true ((hq t ht).symm.trans (Token.isOpening_of_isSymbol hts hs))
  have hprimary : Ends primary q (.fault ⟨q.head?, .expression⟩ q []) := by
    refine .succ ?_
    simp only [primary_succ]
    refine ends_takeIf_none ?_ (ends_takeIf_none ?_ (ends_takeIf_none (hsymbol (by decide)) ?_))
    · intro t ht
      cases hliteral : literal? t with
      | none => rfl
      | some value =>
        exact absurd ((hq t ht).symm.trans (Token.isOpening_of_literal? hliteral))
          Bool.false_ne_true
    · intro t ht
      refine Bool.eq_false_iff.mpr fun hkind => ?_
      have hopening := hq t ht
      rw [Token.isOpening, eq_of_beq hkind] at hopening
      cases hopening
    · exact ends_fail .expression q
  have hunary : Ends unary q (.fault ⟨q.head?, .expression⟩ q []) := by
    refine .succ ?_
    simp only [unary_succ]
    refine ends_takeIf_none ?_ (hprimary.bind_fault _)
    intro t ht
    rw [List.any_cons, List.any_cons, hsymbol (by decide) t ht, hsymbol (by decide) t ht]
    rfl
  refine .succ ?_
  simp only [expression_succ]
  exact (ends_level_fault hunary levels).bind_fault _

/-! ## What may follow -/

/--
What may follow a declaration in a program without a fault: nothing, an `^e^`, the end of a block,
or another declaration.
-/
def Following (q : List Token) : Prop :=
  q = [] ∨ (∃ t us, q = t :: us ∧ (t.isSymbol .ifElse = true ∨ t.isSymbol .blockEnd = true)) ∨
    ∃ d rest, q = d ++ rest ∧ Word .declaration d

/-- The symbols that a declaration other than an expression may start with. -/
def leaders : List Symbol :=
  [.function, .var, .print, .forLoop, .whileLoop, .ifThen, .blockStart, .ret]

/-- A declaration is an expression, or it starts with a symbol of its own. -/
theorem exprStmt_or_leader (h : Word .declaration d) :
    Word .exprStmt d ∨ ∃ t us, d = t :: us ∧ leaders.any t.isSymbol = true := by
  have hleader : ∀ {s : Symbol} {t : Token} {us : List Token}, d = t :: us →
      t.isSymbol s = true → s ∈ leaders → ∃ t us, d = t :: us ∧ leaders.any t.isSymbol = true :=
    fun hd ht hs => ⟨_, _, hd, List.any_eq_true.mpr ⟨_, hs, ht⟩⟩
  rcases matches_declaration.mp (matches_of_word h) with h | h | h
  · obtain ⟨start, _, _, _, _, _, hd, hstart, -⟩ := matches_funDecl.mp (matches_of_word h)
    exact Or.inr (hleader hd hstart (by decide))
  · obtain ⟨start, _, _, _, hd, hstart, -⟩ := matches_varDecl.mp (matches_of_word h)
    exact Or.inr (hleader hd hstart (by decide))
  rcases matches_statement.mp (matches_of_word h) with h | h | h | h | h | h | h
  · exact Or.inl h
  · obtain ⟨start, _, _, hd, hstart, -⟩ := matches_printStmt.mp (matches_of_word h)
    exact Or.inr (hleader hd hstart (by decide))
  · obtain ⟨start, _, _, _, _, _, _, _, hd, hstart, -⟩ := matches_forStmt.mp (matches_of_word h)
    exact Or.inr (hleader hd hstart (by decide))
  · obtain ⟨start, _, _, _, _, hd, hstart, -⟩ := matches_whileStmt.mp (matches_of_word h)
    exact Or.inr (hleader hd hstart (by decide))
  · obtain ⟨start, _, _, _, _, _, hd, hstart, -⟩ := matches_ifStmt.mp (matches_of_word h)
    exact Or.inr (hleader hd hstart (by decide))
  · obtain ⟨start, _, _, hd, hstart, -⟩ := matches_block.mp (matches_of_word h)
    exact Or.inr (hleader hd hstart (by decide))
  · obtain ⟨start, _, _, hd, hstart, -⟩ := matches_returnStmt.mp (matches_of_word h)
    exact Or.inr (hleader hd hstart (by decide))

/-- The next token does not start an expression, either. -/
def Halting (q : List Token) : Prop := Parted q ∧ ∀ t ∈ q.head?, t.isOpening = false

theorem halting_of_isSymbol {t : Token} {s : Symbol} (ht : t.isSymbol s = true)
    (hs : s ∈ .ifElse :: .blockEnd :: leaders) : Halting (t :: us) := by
  have hall : ∀ s ∈ Symbol.ifElse :: .blockEnd :: leaders,
      s.rank? = none ∧ s ≠ .semicolon ∧ s ∉ Symbol.openings := by decide
  obtain ⟨hrank, hsemi, hopening⟩ := hall s hs
  have hkind := Token.isSymbol_iff.mp ht
  refine ⟨?_, ?_⟩
  · rintro _ ⟨⟩
    refine ⟨Token.rank?_of_isSymbol ht hrank, ?_⟩
    rw [isSymbol_of_kind hkind]
    exact decide_eq_false hsemi
  · rintro _ ⟨⟩
    rw [Token.isOpening, hkind]
    exact decide_eq_false hopening

/-- What follows starts no expression, or it is one with its semicolon. -/
theorem Following.cases (h : Following q) : Halting q ∨ ∃ vs stop rest, q = vs ++ stop :: rest ∧
    Word .expression vs ∧ stop.isSymbol .semicolon = true := by
  rcases h with rfl | ⟨t, us, rfl, ht | ht⟩ | ⟨d, rest, rfl, hd⟩
  · exact Or.inl ⟨by rintro _ ⟨⟩, by rintro _ ⟨⟩⟩
  · exact Or.inl (halting_of_isSymbol ht (by decide))
  · exact Or.inl (halting_of_isSymbol ht (by decide))
  · rcases exprStmt_or_leader hd with hd | ⟨t, us, rfl, ht⟩
    · obtain ⟨vs, stop, rfl, hvs, hstop⟩ := matches_exprStmt.mp (matches_of_word hd)
      exact Or.inr ⟨vs, stop, rest, by rw [List.append_assoc]; rfl, hvs, hstop⟩
    · obtain ⟨s, hs, ht⟩ := List.any_eq_true.mp ht
      exact Or.inl (halting_of_isSymbol ht (List.mem_cons_of_mem _ (List.mem_cons_of_mem _ hs)))

/-- A token that starts an expression goes on with none before it, but for two symbols. -/
theorem rank?_of_isOpening {t : Token} (h : t.isOpening = true) :
    t.rank? = none ∨ t.isSymbol .leftParen = true ∨ t.isSymbol .minus = true := by
  have hall : ∀ s ∈ Symbol.openings, s.rank? = none ∨ s = .leftParen ∨ s = .minus := by decide
  obtain ⟨kind, lexeme, line⟩ := t
  cases kind with
  | symbol s =>
    rw [Token.isOpening, decide_eq_true_iff] at h
    simpa [Token.rank?, Token.symbol?, Token.isSymbol] using hall s h
  | _ => exact Or.inl rfl

/-- An expression is parted from what follows, or it is one with it. -/
theorem Following.parted_or_word (hq : Following q) (h : Word .expression us) :
    Parted q ∨ ∃ vs stop rest, q = vs ++ stop :: rest ∧ stop.isSymbol .semicolon = true ∧
      Word .expression vs ∧ Word .expression (us ++ vs) := by
  rcases hq.cases with hq | ⟨vs, stop, rest, rfl, hvs, hstop⟩
  · exact Or.inl hq.1
  · obtain ⟨t, ws, rfl, ht⟩ := opening_of_word hvs
    rcases rank?_of_isOpening ht with hrank | hresuming
    · refine Or.inl ?_
      rintro _ ⟨⟩
      exact ⟨hrank, Token.isSymbol_of_isOpening ht (by decide)⟩
    · exact Or.inr ⟨t :: ws, stop, rest, rfl, hstop, hvs, word_append h hvs ⟨t, ws, rfl, hresuming⟩⟩

/-! ## Declarations -/

/--
With such tokens behind it the parser finds a fault at the first of them, or they start with an
expression that makes a word of the rule with what was read.
-/
def Gap (p : Nat → Parser α) (n : Nonterminal) (us q : List Token) : Prop :=
  (∃ cause, Ends p (us ++ q) (.fault ⟨q.head?, cause⟩ q [])) ∨
    ∃ d rest, q = d ++ rest ∧ Word .exprStmt d ∧ Word n (us ++ d)

/-- After an expression there is a fault, or the expression goes on. -/
theorem gap_of_expression {p : Nat → Parser α} {n : Nonterminal} (us : List Token)
    (cause : SyntaxCause) (hq : Following q) (h : Word .expression vs)
    (hfault : Parted q → Ends p (us ++ (vs ++ q)) (.fault ⟨q.head?, cause⟩ q []))
    (hword : ∀ {ws stop}, Word .expression ws → stop.isSymbol .semicolon = true →
      Word n (us ++ ws ++ [stop])) : Gap p n (us ++ vs) q := by
  rcases hq.parted_or_word h with hparted | ⟨ws, stop, rest, rfl, hstop, hws, hall⟩
  · refine Or.inl ⟨cause, ?_⟩
    rw [List.append_assoc]
    exact hfault hparted
  · refine Or.inr ⟨ws ++ [stop], rest, by rw [List.append_assoc]; rfl, ?_, ?_⟩
    · exact word_of_matches (matches_exprStmt.mpr ⟨ws, stop, rfl, hws, hstop⟩)
    · have hline := hword hall hstop
      simpa only [List.append_assoc] using hline

/-- An expression that may be left out is read where there is one. -/
theorem reaches_expressionUnless_of_word {symbol : Symbol} (h : Word .expression us)
    (hrest : Stops 0 rest) (hopening : symbol ∉ Symbol.openings) :
    Reaches (fun n => expressionUnless n symbol) (us ++ rest) rest := by
  have hread := reaches_expression h hrest
  obtain ⟨t, vs, rfl, ht⟩ := opening_of_word h
  exact ends_nextIs (Token.isSymbol_of_isOpening ht hopening)
    (hread.bind fun _ => reaches_pure _ _)

theorem gap_return {start : Token} (hstart : start.isSymbol .ret = true) (hq : Following q) :
    Gap statement .statement [start] q := by
  rcases hq.cases with ⟨hparted, hopening⟩ | ⟨vs, stop, rest, rfl, hvs, hstop⟩
  · refine Or.inl ⟨.expression, ends_returnStmt hstart (Ends.bind_fault ?_ _)⟩
    refine ends_nextIs (b := false) ?_ ((ends_expression_fault hopening).bind_fault _)
    cases q with
    | nil => rfl
    | cons t q => exact hparted.semicolon t rfl
  · refine Or.inr ⟨vs ++ [stop], rest, by rw [List.append_assoc]; rfl, ?_, ?_⟩
    · exact word_of_matches (matches_exprStmt.mpr ⟨vs, stop, rfl, hvs, hstop⟩)
    · exact (Line.ret hstart (Or.inr hvs)).word hstop

theorem gap_line (h : Line us) (hq : Following q) : Gap statement .statement us q := by
  cases h with
  | expression h =>
    refine gap_of_expression [] .expressionEnd hq h (fun hparted => ?_) fun hall hstop => ?_
    · rw [List.nil_append]
      exact ends_exprStmt h (ends_terminated_fault .expressionEnd h hparted)
    · exact (Line.expression hall).word hstop
  | @print start us hstart h =>
    refine gap_of_expression [start] .printEnd hq h (fun hparted => ?_) fun hall hstop => ?_
    · exact ends_printStmt hstart (ends_terminated_fault .printEnd h hparted)
    · exact (Line.print hstart hall).word hstop
  | @ret start us hstart h =>
    rcases h with rfl | h
    · exact gap_return hstart hq
    · refine gap_of_expression [start] .returnEnd hq h (fun hparted => ?_) fun hall hstop => ?_
      · refine ends_returnStmt hstart ?_
        exact (reaches_expressionUnless_of_word h hparted.stops (by decide)).bind fun _ =>
          ends_expect_fault _ hparted.semicolon
      · exact (Line.ret hstart (Or.inr hall)).word hstop

/-- A header passes a fault on, and makes a statement of a statement. -/
theorem gap_headed (h : Headed Line us) (hq : Following q) : Gap statement .statement us q := by
  induction h with
  | here h => exact gap_line h hq
  | body h _ ih =>
    rcases ih with ⟨cause, hfault⟩ | ⟨d, rest, rfl, hd, hword⟩
    · obtain ⟨m, hleads⟩ := exists_leads h
      refine Or.inl ⟨cause, ?_⟩
      rw [List.append_assoc]
      exact hleads hfault rfl
    · refine Or.inr ⟨d, rest, rfl, hd, ?_⟩
      rw [List.append_assoc]
      exact h.word hword

theorem starts_line (h : Line us) : Starts foreign us := by
  cases h with
  | expression h =>
    have hforeign : ∀ s ∈ foreign, s ∉ Symbol.openings := by decide
    obtain ⟨t, vs, rfl, ht⟩ := opening_of_word h
    exact ⟨t, vs, rfl, fun s hs => Token.isSymbol_of_isOpening ht (hforeign s hs)⟩
  | print hstart h => exact starts_of_isSymbol hstart (by decide)
  | ret hstart h => exact starts_of_isSymbol hstart (by decide)

theorem starts_begun (h : Begun b) : Starts [.ifElse, .blockEnd] b := by
  cases h with
  | statement h => exact (starts_headed starts_line h).mono (by decide)
  | var hstart hname hvalue => exact starts_of_isSymbol hstart (by decide)

/-- A declaration that was read as one of a variable. -/
theorem ends_varDecl {start : Token} (hstart : start.isSymbol .var = true)
    (h : Ends variableDecl us e) : Ends declaration (start :: us) e := by
  refine .succ ?_
  simp only [declaration_succ]
  refine ends_takeIf_none ?_ (ends_takeIf hstart h)
  rintro _ ⟨⟩
  rw [isSymbol_of_kind (Token.isSymbol_iff.mp hstart)]
  rfl

/-- What follows is neither a semicolon nor the value of a variable. -/
theorem Following.isSymbol (h : Following q) {s : Symbol} (hs : s = .equal ∨ s = .semicolon) :
    ∀ t ∈ q.head?, t.isSymbol s = false := by
  intro t ht
  rcases h.cases with ⟨hparted, -⟩ | ⟨vs, stop, rest, rfl, hvs, -⟩
  · rcases hs with rfl | rfl
    · refine Bool.eq_false_iff.mpr fun hequal => ?_
      have hrank := (hparted t ht).1
      rw [Token.rank?, Token.symbol?, Token.isSymbol_iff.mp hequal] at hrank
      cases hrank
    · exact (hparted t ht).2
  · obtain ⟨t', ws, rfl, hopening⟩ := opening_of_word hvs
    cases ht
    rcases hs with rfl | rfl <;> exact Token.isSymbol_of_isOpening hopening (by decide)

/-- A variable without a value does not go on. -/
theorem gap_var {start name : Token} (hstart : start.isSymbol .var = true)
    (hname : name.kind = .identifier) (hq : Following q) :
    Gap declaration .declaration [start, name] q := by
  refine Or.inl ⟨.variableEnd, ends_varDecl hstart ?_⟩
  simp only [funext variableDecl_eq]
  refine ends_expectName hname ?_
  have hnone : Reaches initialValue q q :=
    ends_takeIf_none (hq.isSymbol (Or.inl rfl)) (reaches_pure _ _)
  exact hnone.bind fun _ => ends_expect_fault _ (hq.isSymbol (Or.inr rfl))

/-- **A missing semicolon is a fault at the token that stands there, or it is not missed.** -/
theorem gap_begun (h : Begun b) (hq : Following q) : Gap declaration .declaration b q := by
  cases h with
  | statement h =>
    have hstarts : Starts [.function, .var] (b ++ q) :=
      ((starts_headed starts_line h).append q).mono (by decide)
    rcases gap_headed h hq with ⟨cause, hfault⟩ | ⟨d, rest, hrest, hd, hword⟩
    · exact Or.inl ⟨cause, ends_declaration hstarts hfault⟩
    · exact Or.inr ⟨d, rest, hrest, hd, hword.declaration⟩
  | @var start name us hstart hname hvalue =>
    rcases hvalue with rfl | ⟨equals, vs, rfl, hequals, hvs⟩
    · exact gap_var hstart hname hq
    · refine gap_of_expression [start, name, equals] .variableEnd hq hvs (fun hparted => ?_)
        fun {ws stop} hall hstop => ?_
      · refine ends_varDecl hstart ?_
        simp only [funext variableDecl_eq]
        refine ends_expectName hname ?_
        have hsome : Reaches initialValue (equals :: (vs ++ q)) q :=
          ends_takeIf hequals ((reaches_expression hvs hparted.stops).bind fun _ =>
            reaches_pure _ _)
        exact hsome.bind fun _ => ends_expect_fault _ hparted.semicolon
      · exact (Begun.var hstart hname (Or.inr ⟨equals, ws, rfl, hequals, hall⟩)).word hstop

/-! ## Simple declarations -/

/-- A declaration that ends with its first semicolon. -/
def Simple (d : List Token) : Prop :=
  Word .exprStmt d ∨ Word .printStmt d ∨ Word .varDecl d ∨ Word .returnStmt d

theorem Simple.cases (h : Simple d) : ∃ us stop, d = us ++ [stop] ∧
    stop.isSymbol .semicolon = true ∧ (Line us ∨ ∃ start name vs, us = start :: name :: vs ∧
      start.isSymbol .var = true ∧ name.kind = .identifier ∧ (vs = [] ∨ ∃ equals ws,
        vs = equals :: ws ∧ equals.isSymbol .equal = true ∧ Word .expression ws)) := by
  rcases h with h | h | h | h
  · obtain ⟨us, stop, rfl, hus, hstop⟩ := matches_exprStmt.mp (matches_of_word h)
    exact ⟨us, stop, rfl, hstop, Or.inl (.expression hus)⟩
  · obtain ⟨start, us, stop, rfl, hstart, hus, hstop⟩ := matches_printStmt.mp (matches_of_word h)
    exact ⟨start :: us, stop, rfl, hstop, Or.inl (.print hstart hus)⟩
  · obtain ⟨start, name, us, stop, rfl, hstart, hname, hus, hstop⟩ :=
      matches_varDecl.mp (matches_of_word h)
    exact ⟨_, stop, rfl, hstop, Or.inr ⟨start, name, us, rfl, hstart, hname, hus⟩⟩
  · obtain ⟨start, us, stop, rfl, hstart, hus, hstop⟩ := matches_returnStmt.mp (matches_of_word h)
    exact ⟨start :: us, stop, rfl, hstop, Or.inl (.ret hstart hus)⟩

theorem reaches_line {stop : Token} (h : Line us) (hstop : stop.isSymbol .semicolon = true) :
    Reaches statement (us ++ stop :: rest) rest := by
  cases h with
  | expression h => exact ends_exprStmt h (reaches_terminated _ h hstop rest)
  | print hstart h => exact ends_printStmt hstart (reaches_terminated _ h hstop rest)
  | ret hstart h =>
    refine ends_returnStmt hstart ?_
    exact (reaches_expressionUnless h hstop rfl (by decide)).bind fun _ =>
      ends_expect hstop (reaches_pure _ _)

/-- It is read up to its semicolon, whatever follows. -/
theorem Simple.reaches (h : Simple d) (rest : List Token) :
    Reaches declaration (d ++ rest) rest := by
  obtain ⟨us, stop, rfl, hstop, hline | ⟨start, name, vs, rfl, hstart, hname, hvs⟩⟩ := h.cases
  · rw [List.append_assoc]
    refine ends_declaration ?_ (reaches_line hline hstop)
    exact ((starts_line hline).append _).mono (by decide)
  · simp only [List.cons_append, List.append_assoc, List.nil_append]
    exact ends_varDecl hstart (reaches_variableDecl hname hvs hstop)

theorem Simple.word (h : Simple d) : Word .declaration d := by
  rcases h with h | h | h | h
  · exact (word_statement_of (Or.inl h)).declaration
  · exact (word_statement_of (Or.inr (Or.inl h))).declaration
  · exact word_of_matches (matches_declaration.mpr (Or.inr (Or.inl h)))
  · exact (word_statement_of (by simp [h])).declaration

/-- The rules for expressions and their parts. -/
def isOperand (n : Nonterminal) : Bool := n.rank?.isSome || n == .arguments

/-- What neither ends a statement nor starts one. -/
def isInner : Terminal → Bool
  | .symbol s => s ∉ .semicolon :: .blockStart :: starters
  | _ => true

theorem within_operand (n : Nonterminal) (h : isOperand n = true) :
    (production n).within isInner isOperand = true := by
  revert h
  cases n <;> decide

/-- No expression has a symbol that ends a statement or starts one. -/
theorem tight_of_word (h : Word .expression us) : Tight us := by
  intro t ht s hs
  obtain ⟨a, ha, hadmits⟩ := Derives.within within_operand h rfl t ht
  refine Bool.eq_false_iff.mpr fun hsymbol => ?_
  have hkind := Token.isSymbol_iff.mp hsymbol
  cases a with
  | symbol s' =>
    have heq := Token.isSymbol_iff.mp hadmits
    rw [hkind] at heq
    cases heq
    exact absurd hs (of_decide_eq_true ha)
  | identifier | number | string => simp [Terminal.admits, hkind] at hadmits

theorem tight_cons {t : Token} (h : Tight us)
    (ht : ∀ s ∈ .semicolon :: .blockStart :: starters, t.isSymbol s = false) : Tight (t :: us) := by
  intro t' ht'
  rcases List.mem_cons.mp ht' with rfl | ht'
  · exact ht
  · exact h t' ht'

/-- A first token may be the start of a declaration. -/
theorem loose_cons {t : Token} {s : Symbol} (h : Tight us) (ht : t.isSymbol s = true)
    (hs : s ∉ [Symbol.semicolon, .blockStart, .forLoop]) : Loose (t :: us) := by
  refine ⟨fun t' ht' s' hs' => ?_, fun t' ht' s' hs' => h t' ht' s' (by simp [hs'])⟩
  rcases List.mem_cons.mp ht' with rfl | ht'
  · rw [isSymbol_of_kind (Token.isSymbol_iff.mp ht)]
    refine decide_eq_false fun heq => hs (heq ▸ hs')
  · refine h t' ht' s' ?_
    revert hs'
    revert s'
    decide

theorem loose_line (h : Line us) : Loose us := by
  cases h with
  | expression h => exact (tight_of_word h).loose
  | print hstart h => exact loose_cons (tight_of_word h) hstart (by decide)
  | ret hstart h =>
    refine loose_cons ?_ hstart (by decide)
    rcases h with rfl | h
    · exact fun _ ht => absurd ht List.not_mem_nil
    · exact tight_of_word h

/-- After a fault at its first token, reading goes on right behind it. -/
theorem Simple.skipped (h : Simple d) : Skipped d := by
  obtain ⟨us, stop, rfl, hstop, hline | ⟨start, name, vs, rfl, hstart, hname, hvs⟩⟩ := h.cases
  · exact skipped_of_upto hstop ⟨us, rfl, loose_line hline⟩
  · refine skipped_of_upto hstop ⟨_, rfl, loose_cons (tight_cons ?_ ?_) hstart (by decide)⟩
    · rcases hvs with rfl | ⟨equals, ws, rfl, hequals, hws⟩
      · exact fun _ ht => absurd ht List.not_mem_nil
      · refine tight_cons (tight_of_word hws) fun s hs => ?_
        rw [isSymbol_of_kind (Token.isSymbol_iff.mp hequals)]
        revert hs
        revert s
        decide
    · intro s _
      simp [Token.isSymbol, hname]

end Nya.Parse
