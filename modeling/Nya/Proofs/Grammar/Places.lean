import Nya.Proofs.Grammar.Statements

/-!
# Places in a program

A declaration stands in a program or in a block of another one, at any depth, and a statement may be
the body of a loop or a branch of a conditional. The words of the grammar are cut here at such
places: `Around` says what may come before a declaration, and `Begun` how a declaration goes up to a
semicolon that ends an expression, a `print`, a variable or a return.

In neither of them is the place inside the clauses of a `^o^` loop.
-/

namespace Nya.Grammar

variable {us vs w b before : List Token}

/-! ## Inside a declaration -/

/-- The tokens before the body of a loop, or before a branch of a conditional. -/
inductive Header : List Token → Prop where
  | whileLoop {start paren close : Token} {us : List Token}
      (hstart : start.isSymbol .whileLoop = true) (hparen : paren.isSymbol .leftParen = true)
      (h : Word .expression us) (hclose : close.isSymbol .rightParen = true) :
      Header (start :: paren :: (us ++ [close]))
  | forLoop {start paren stop close : Token} {us vs ws : List Token}
      (hstart : start.isSymbol .forLoop = true) (hparen : paren.isSymbol .leftParen = true)
      (hinit : Word .varDecl us ∨ Word .exprStmt us ∨
        ∃ t, us = [t] ∧ t.isSymbol .semicolon = true)
      (hcondition : vs = [] ∨ Word .expression vs) (hstop : stop.isSymbol .semicolon = true)
      (hincrement : ws = [] ∨ Word .expression ws) (hclose : close.isSymbol .rightParen = true) :
      Header (start :: paren :: (us ++ (vs ++ stop :: (ws ++ [close]))))
  | ifThen {start paren close : Token} {us : List Token}
      (hstart : start.isSymbol .ifThen = true) (hparen : paren.isSymbol .leftParen = true)
      (h : Word .expression us) (hclose : close.isSymbol .rightParen = true) :
      Header (start :: paren :: (us ++ [close]))
  | ifElse {start paren close keyword : Token} {us vs : List Token}
      (hstart : start.isSymbol .ifThen = true) (hparen : paren.isSymbol .leftParen = true)
      (h : Word .expression us) (hclose : close.isSymbol .rightParen = true)
      (hthen : Word .statement vs) (hkeyword : keyword.isSymbol .ifElse = true) :
      Header (start :: paren :: (us ++ close :: (vs ++ [keyword])))

/-- Such tokens, after any number of headers. -/
inductive Headed (T : List Token → Prop) : List Token → Prop where
  | here {us : List Token} (h : T us) : Headed T us
  | body {us vs : List Token} (h : Header us) (inner : Headed T vs) : Headed T (us ++ vs)

/-- A statement that a semicolon ends, without it. -/
inductive Line : List Token → Prop where
  | expression {us : List Token} (h : Word .expression us) : Line us
  | print {start : Token} {us : List Token} (hstart : start.isSymbol .print = true)
      (h : Word .expression us) : Line (start :: us)
  | ret {start : Token} {us : List Token} (hstart : start.isSymbol .ret = true)
      (h : us = [] ∨ Word .expression us) : Line (start :: us)

/-- A declaration up to where a semicolon ends a statement or a variable in it. -/
inductive Begun : List Token → Prop where
  | statement {us : List Token} (h : Headed Line us) : Begun us
  | var {start name : Token} {us : List Token} (hstart : start.isSymbol .var = true)
      (hname : name.kind = .identifier)
      (hvalue : us = [] ∨ ∃ equals vs, us = equals :: vs ∧ equals.isSymbol .equal = true ∧
        Word .expression vs) : Begun (start :: name :: us)

/-- A declaration up to where a block in it has started. -/
inductive Opened : List Token → Prop where
  | statement {us : List Token}
      (h : Headed
        (fun vs => ∃ start : Token, vs = [start] ∧ start.isSymbol .blockStart = true) us) :
      Opened us
  | function {start name paren close first : Token} {us : List Token}
      (hstart : start.isSymbol .function = true) (hname : name.kind = .identifier)
      (hparen : paren.isSymbol .leftParen = true) (hparams : us = [] ∨ Word .parameters us)
      (hclose : close.isSymbol .rightParen = true) (hfirst : first.isSymbol .blockStart = true) :
      Opened (start :: name :: paren :: (us ++ [close, first]))

/-- What comes before a declaration of a program, or of a block at any depth in it. -/
inductive Around : List Token → Prop where
  | program {words : List (List Token)} (h : ∀ u ∈ words, Word .declaration u) :
      Around words.flatten
  | block {before us : List Token} {words : List (List Token)} (outer : Around before)
      (hus : Opened us) (h : ∀ u ∈ words, Word .declaration u) :
      Around (before ++ (us ++ words.flatten))

/-! ## Words -/

theorem word_statement_of (h : Word .exprStmt w ∨ Word .printStmt w ∨ Word .forStmt w ∨
    Word .whileStmt w ∨ Word .ifStmt w ∨ Word .block w ∨ Word .returnStmt w) : Word .statement w :=
  word_of_matches (matches_statement.mpr h)

theorem Word.declaration (h : Word .statement w) : Word .declaration w :=
  word_of_matches (matches_declaration.mpr (Or.inr (Or.inr h)))

/-- A statement behind a header makes a statement with it. -/
theorem Header.word (h : Header us) (hw : Word .statement w) : Word .statement (us ++ w) := by
  refine word_statement_of ?_
  cases h with
  | whileLoop hstart hparen h hclose =>
    refine Or.inr (Or.inr (Or.inr (Or.inl (word_of_matches (matches_whileStmt.mpr
      ⟨_, _, _, _, w, ?_, hstart, hparen, h, hclose, hw⟩)))))
    simp only [List.cons_append, List.append_assoc, List.nil_append]
  | forLoop hstart hparen hinit hcondition hstop hincrement hclose =>
    refine Or.inr (Or.inr (Or.inl (word_of_matches (matches_forStmt.mpr
      ⟨_, _, _, _, _, _, _, w, ?_, hstart, hparen, hinit, hcondition, hstop, hincrement, hclose,
        hw⟩))))
    simp only [List.cons_append, List.append_assoc, List.nil_append]
  | ifThen hstart hparen h hclose =>
    refine Or.inr (Or.inr (Or.inr (Or.inr (Or.inl (word_of_matches (matches_ifStmt.mpr
      ⟨_, _, _, _, w, [], ?_, hstart, hparen, h, hclose, hw, Or.inl rfl⟩))))))
    simp only [List.cons_append, List.append_assoc, List.nil_append, List.append_nil]
  | ifElse hstart hparen h hclose hthen hkeyword =>
    refine Or.inr (Or.inr (Or.inr (Or.inr (Or.inl (word_of_matches (matches_ifStmt.mpr
      ⟨_, _, _, _, _, _, ?_, hstart, hparen, h, hclose, hthen,
        Or.inr ⟨_, w, rfl, hkeyword, hw⟩⟩))))))
    simp only [List.cons_append, List.append_assoc, List.nil_append]

variable {semi : Token} (hsemi : semi.isSymbol .semicolon = true)

include hsemi

theorem Line.word (h : Line us) : Word .statement (us ++ [semi]) := by
  refine word_statement_of ?_
  cases h with
  | expression h =>
    exact Or.inl (word_of_matches (matches_exprStmt.mpr ⟨us, semi, rfl, h, hsemi⟩))
  | print hstart h =>
    exact Or.inr (Or.inl (word_of_matches (matches_printStmt.mpr
      ⟨_, _, semi, rfl, hstart, h, hsemi⟩)))
  | ret hstart h =>
    exact Or.inr (Or.inr (Or.inr (Or.inr (Or.inr (Or.inr (word_of_matches (matches_returnStmt.mpr
      ⟨_, _, semi, rfl, hstart, h, hsemi⟩)))))))

theorem Headed.word (h : Headed Line us) : Word .statement (us ++ [semi]) := by
  induction h with
  | here h => exact h.word hsemi
  | body h _ ih =>
    rw [List.append_assoc]
    exact h.word ih

/-- With its semicolon the declaration may end. -/
theorem Begun.word (h : Begun b) : Word .declaration (b ++ [semi]) := by
  cases h with
  | statement h => exact (h.word hsemi).declaration
  | var hstart hname hvalue =>
    exact word_of_matches (matches_declaration.mpr (Or.inr (Or.inl (word_of_matches
      (matches_varDecl.mpr ⟨_, _, _, semi, rfl, hstart, hname, hvalue, hsemi⟩)))))

omit hsemi

/-- After a whole declaration there is a place again. -/
theorem Around.append (h : Around before) (hw : Word .declaration w) : Around (before ++ w) := by
  have hmem : ∀ {words : List (List Token)}, (∀ u ∈ words, Word .declaration u) →
      ∀ u ∈ words ++ [w], Word .declaration u := by
    intro words h u hu
    rcases List.mem_append.mp hu with hu | hu
    · exact h u hu
    · rwa [List.mem_singleton.mp hu]
  cases h with
  | program h =>
    have hall := Around.program (hmem h)
    rwa [List.flatten_append, List.flatten_singleton] at hall
  | block outer hus h =>
    have hall := outer.block hus (hmem h)
    rwa [List.flatten_append, List.flatten_singleton, ← List.append_assoc, ← List.append_assoc,
      List.append_assoc _ _ (List.flatten _)] at hall

end Nya.Grammar
