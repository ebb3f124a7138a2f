import Nya.Proofs.Tree.Outline

/-!
# Trees built from nested lists

The outline of a tree can be built again from its nested list: the head of a list and the number of
its items tell which kind of node it was, and the place of a word tells whether it is an operator, a
name or a literal. So two trees are printed alike if and only if their outlines are the same.

The one part of it that is not computed is the number that a text was written for.
-/

namespace Nya

variable {t : Token}

/-- The symbol with a spelling. -/
def Symbol.ofSpelling (text : String) : Symbol :=
  ((Symbol.operators ++ Symbol.keywords).find? fun s => s.spelling == text).getD default

theorem Symbol.ofSpelling_spelling (s : Symbol) : Symbol.ofSpelling s.spelling = s := by
  cases s <;> decide

/-- The symbol as a token, without a line. -/
def Token.spelled (text : String) : Token := ⟨.symbol (.ofSpelling text), text, 0⟩

theorem Token.Spells.spelled_lexeme {symbols : List Symbol} (h : t.Spells symbols) :
    Token.spelled t.lexeme = t.unlined := by
  obtain ⟨s, -, hkind, hlexeme⟩ := h.exists_lexeme
  rw [Token.spelled, Token.unlined, hlexeme, Symbol.ofSpelling_spelling, ← hkind, ← hlexeme]

theorem Token.Spells.unlined_eq {s : Symbol} (h : t.Spells [s]) :
    t.unlined = .spelled s.spelling := by
  obtain ⟨s', hs, -, hlexeme⟩ := h.exists_lexeme
  rw [← h.spelled_lexeme, hlexeme, List.mem_singleton.mp hs]

theorem Token.Names.named_lexeme (h : t.Names) : Token.named t.lexeme = t.unlined := by
  rw [Token.named, Token.unlined, ← h.2]

/-! ## Expressions -/

/-- Gives back the number that a text was written for. -/
def Number.ReadsBack (number : String → Float) : Prop := ∀ x, number (Number.plain x) = x

section Expressions

variable (number : String → Float)

/-- The operand that a word is, given the numbers that texts are written for. -/
def Expr.ofWord (text : String) : Expr :=
  if text.toList.head? = some '"' then .literal 0 (.string (.ofList text.toList.tail.dropLast))
  else if text = Symbol.yes.spelling then .literal 0 (.boolean true)
  else if text = Symbol.no.spelling then .literal 0 (.boolean false)
  else if text = Symbol.nil.spelling then .literal 0 .nil
  else if text.toList.head?.any Scan.isWordStart then .read (.named text)
  else .literal 0 (.number (number text))

/-- The node with a head and the items behind it. The first of them may also be a name. -/
def Expr.ofHead (head name : String) (first : Expr) : List Expr → Expr
  | [] => if head = "call" then .call 0 first [] (.spelled ")")
    else if head = "group" then .group 0 first
    else .unary 0 (.spelled head) first
  | second :: others => if head = "call" then .call 0 first (second :: others) (.spelled ")")
    else if head = "o/" then .assign (.named name) second
    else if head = "&.&" ∨ head = "v.v" then .logical 0 first (.spelled head) second
    else .binary 0 first (.spelled head) second

/-- The node with such items, given the words that they are. -/
def Expr.ofItems (texts : List String) : List Expr → Expr
  | _ :: first :: others => ofHead (texts[0]?.getD "") (texts[1]?.getD "") first others
  | _ => default

/-- The word that an item is. -/
def Sexp.text : Sexp → String
  | .word text => text
  | .list _ => ""

mutual

/-- The expression that a nested list is. -/
def Sexp.expr : Sexp → Expr
  | .word text => Expr.ofWord number text
  | .list items => Expr.ofItems (items.map text) (Sexp.exprs items)

/-- The same of the items of a list. -/
def Sexp.exprs : List Sexp → List Expr
  | [] => []
  | s :: ss => s.expr :: Sexp.exprs ss

end

theorem Sexp.expr_list (head : String) (s : Sexp) (ss : List Sexp) :
    (Sexp.list (.word head :: s :: ss)).expr number =
      Expr.ofHead head s.text (s.expr number) (Sexp.exprs number ss) := rfl

theorem Expr.ofHead_call (name : String) (callee : Expr) (arguments : List Expr) :
    Expr.ofHead "call" name callee arguments = .call 0 callee arguments (.spelled ")") := by
  cases arguments <;> rw [Expr.ofHead, if_pos rfl]

/-- No operator is one of the other heads. -/
theorem Token.Spells.lexeme_ne {symbols : List Symbol} (h : t.Spells symbols)
    (hsub : ∀ s ∈ symbols, s ∈ Symbol.heads) {head : String} (hhead : head ∈ fixedHeads) :
    t.lexeme ≠ head := by
  have hall : ∀ s ∈ Symbol.heads, s.spelling ∉ fixedHeads := by decide
  obtain ⟨s, hs, -, hlexeme⟩ := h.exists_lexeme
  rintro rfl
  exact hall s (hsub s hs) (hlexeme ▸ hhead)

theorem Expr.ofHead_unary (h : t.Spells [.bang, .minus]) (name : String) (right : Expr) :
    Expr.ofHead t.lexeme name right [] = .unary 0 t.unlined right := by
  rw [Expr.ofHead, if_neg (h.lexeme_ne (by decide) (by decide)),
    if_neg (h.lexeme_ne (by decide) (by decide)), h.spelled_lexeme]

theorem Expr.ofHead_binary (h : t.Spells Symbol.binary) (name : String) (left right : Expr) :
    Expr.ofHead t.lexeme name left [right] = .binary 0 left t.unlined right := by
  have hall : ∀ s ∈ Symbol.binary, ¬(s.spelling = "&.&" ∨ s.spelling = "v.v") := by decide
  obtain ⟨s, hs, -, hlexeme⟩ := h.exists_lexeme
  rw [Expr.ofHead, if_neg (h.lexeme_ne (by decide) (by decide)),
    if_neg (h.lexeme_ne (by decide) (by decide)), if_neg (hlexeme ▸ hall s hs), h.spelled_lexeme]

theorem Expr.ofHead_logical (h : t.Spells [.and, .or]) (name : String) (left right : Expr) :
    Expr.ofHead t.lexeme name left [right] = .logical 0 left t.unlined right := by
  have hall : ∀ s ∈ [Symbol.and, .or], s.spelling = "&.&" ∨ s.spelling = "v.v" := by decide
  obtain ⟨s, hs, -, hlexeme⟩ := h.exists_lexeme
  rw [Expr.ofHead, if_neg (h.lexeme_ne (by decide) (by decide)),
    if_neg (h.lexeme_ne (by decide) (by decide)), if_pos (hlexeme ▸ hall s hs), h.spelled_lexeme]

theorem Expr.ofWord_name (h : t.Names) :
    Expr.ofWord number t.lexeme = .read (.named t.lexeme) := by
  obtain ⟨c, cs, htext, hc, -, hkeyword⟩ := h.exists_lexeme
  have hquote : c ≠ '"' := Scan.ne_quote_of_isWordPart (Scan.isWordPart_of_isWordStart hc)
  unfold Expr.ofWord
  rw [if_neg (by simpa [htext] using hquote), if_neg (hkeyword .yes (by decide)),
    if_neg (hkeyword .no (by decide)), if_neg (hkeyword .nil (by decide)),
    if_pos (by simpa [htext] using hc)]

variable {number}

theorem Expr.ofWord_literal (hnumber : Number.ReadsBack number) {value : Literal}
    (h : value.Textual) : Expr.ofWord number value.printed = value.outline := by
  cases value with
  | number x =>
    rw [Literal.printed, Literal.outline]
    split
    · next hlarge =>
      rw [Number.plain_of_isInfinity hlarge]
      rfl
    · next hlarge =>
      obtain ⟨c, cs, htext, hstart, hquote⟩ :=
        Number.isWordStart_plain h (Bool.eq_false_iff.mpr hlarge)
      -- A keyword starts like a name.
      have hkeyword : ∀ s ∈ [Symbol.yes, .no, .nil], Number.plain x ≠ s.spelling := by
        intro s hs heq
        have hall : ∀ s ∈ [Symbol.yes, .no, .nil],
            s.spelling.toList.head?.any Scan.isWordStart = true := by decide
        have hword := hall s hs
        rw [← heq, htext] at hword
        exact Bool.false_ne_true (hstart.symm.trans hword)
      unfold Expr.ofWord
      rw [if_neg (by simpa [htext] using hquote), if_neg (hkeyword .yes (by decide)),
        if_neg (hkeyword .no (by decide)), if_neg (hkeyword .nil (by decide)),
        if_neg (by simp [htext, hstart]), hnumber]
  | string text =>
    rw [Literal.printed, Expr.ofWord, if_pos (by simp)]
    simp [Literal.outline]
  | boolean b => cases b <;> rfl
  | nil => rfl

mutual

/-- **The outline of an expression is built again.** -/
theorem Expr.expr_sexp (hnumber : Number.ReadsBack number) : ∀ {e : Expr}, e.Textual →
    e.sexp.expr number = e.outline
  | .literal _ _, h => Expr.ofWord_literal hnumber h
  | .read target, h => by
    rw [Expr.sexp, Sexp.expr, Expr.ofWord_name number h, Expr.outline, Reference.plain,
      Reference.named, Token.Names.named_lexeme h]
  | .assign target value, h => by
    rw [Expr.sexp, Sexp.expr_list, Sexp.exprs, Sexp.exprs, Expr.expr_sexp hnumber h.2, Expr.outline,
      Reference.plain, ← Token.Names.named_lexeme h.1]
    rfl
  | .unary _ operator right, h => by
    rw [Expr.sexp, Sexp.expr_list, Sexp.exprs, Expr.expr_sexp hnumber h.2, Expr.ofHead_unary h.1,
      Expr.outline]
  | .binary _ left operator right, h => by
    rw [Expr.sexp, Sexp.expr_list, Sexp.exprs, Sexp.exprs, Expr.expr_sexp hnumber h.1,
      Expr.expr_sexp hnumber h.2.2, Expr.ofHead_binary h.2.1, Expr.outline]
  | .logical _ left operator right, h => by
    rw [Expr.sexp, Sexp.expr_list, Sexp.exprs, Sexp.exprs, Expr.expr_sexp hnumber h.1,
      Expr.expr_sexp hnumber h.2.2, Expr.ofHead_logical h.2.1, Expr.outline]
  | .group _ inner, h => by
    have hinner : inner.Textual := h
    rw [Expr.sexp, Sexp.expr_list, Sexp.exprs, Expr.expr_sexp hnumber hinner, Expr.outline]
    rfl
  | .call _ callee arguments paren, h => by
    rw [Expr.sexp, Sexp.expr_list, Expr.ofHead_call, Expr.expr_sexp hnumber h.1,
      Expr.exprs_sexps hnumber h.2.1, Expr.outline, h.2.2.unlined_eq]
    rfl

theorem Expr.exprs_sexps (hnumber : Number.ReadsBack number) : ∀ {es : List Expr},
    Expr.TextualAll es → Sexp.exprs number (Expr.sexps es) = Expr.outlineAll es
  | [], _ => rfl
  | e :: es, h => by
    rw [Expr.sexps, Sexp.exprs, Expr.expr_sexp hnumber h.1, Expr.exprs_sexps hnumber h.2,
      Expr.outlineAll]

end

end Expressions

/-! ## Statements -/

/-- An item of a printed statement: the words, the expression and the statement that it may be. -/
structure Item where
  text : String
  texts : List String
  expr : Expr
  stmt : Stmt
  deriving Inhabited

/-- The statement with a head and the items behind it. -/
def Stmt.ofHead (head : String) (items : List Item) : Stmt :=
  if head = "block" then .block (items.map Item.stmt)
  else if head = "c:" then .ret (.spelled "c:") (items[0]?.map Item.expr)
  else if head = ";" then .expression (items.getD 0 default).expr
  else if head = "pwint" then .print (items.getD 0 default).expr
  else if head = ">.<" then .var (.named (items.getD 0 default).text) (items[1]?.map Item.expr)
  else if head = "^w^" then .loop (items.getD 0 default).expr (items.getD 1 default).stmt
  else if head = "^u^" then
    .branch (items.getD 0 default).expr (items.getD 1 default).stmt (items[2]?.map Item.stmt)
  else .function 0 (.named (items.getD 0 default).text)
    ((items.getD 1 default).texts.map .named) ((items.drop 2).map Item.stmt)

/-- The words that the items of a list are. -/
def Sexp.texts : Sexp → List String
  | .word _ => []
  | .list items => items.map text

section Statements

variable (number : String → Float)

mutual

/-- The statement that a nested list is. -/
def Sexp.stmt : Sexp → Stmt
  | .word _ => default
  | .list items => Stmt.ofHead (items.head?.map text |>.getD "") (Sexp.items items).tail

/-- The same of the items of a list. -/
def Sexp.items : List Sexp → List Item
  | [] => []
  | s :: ss => ⟨s.text, s.texts, s.expr number, s.stmt⟩ :: Sexp.items ss

end

theorem Sexp.stmt_list (head : String) (ss : List Sexp) :
    (Sexp.list (.word head :: ss)).stmt number = Stmt.ofHead head (Sexp.items number ss) := rfl

variable {number}

mutual

/-- **The outline of a statement is built again.** -/
theorem Stmt.stmt_sexp (hnumber : Number.ReadsBack number) : ∀ {s : Stmt}, s.Textual →
    s.sexp.stmt number = s.outline
  | .expression e, h | .print e, h => by
    have he : e.Textual := h
    rw [Stmt.sexp, Sexp.stmt_list, Sexp.items, Expr.expr_sexp hnumber he]
    rfl
  | .var name none, h => by
    rw [Stmt.outline, ← h.1.named_lexeme]
    rfl
  | .var name (some init), h => by
    have hinit : init.Textual := h.2
    rw [Stmt.sexp, Sexp.stmt_list, Sexp.items, Sexp.items, Expr.expr_sexp hnumber hinit,
      Stmt.outline, ← h.1.named_lexeme]
    rfl
  | .block body, h => by
    rw [Stmt.sexp, Sexp.stmt_list, Stmt.ofHead, if_pos rfl, Stmt.stmts_sexps hnumber h,
      Stmt.outline]
  | .branch condition thenBranch none, h => by
    rw [Stmt.sexp, Sexp.stmt_list, Sexp.items, Sexp.items, Expr.expr_sexp hnumber h.1,
      Stmt.stmt_sexp hnumber h.2]
    rfl
  | .branch condition thenBranch (some elseBranch), h => by
    rw [Stmt.sexp, Sexp.stmt_list, Sexp.items, Sexp.items, Sexp.items,
      Expr.expr_sexp hnumber h.1, Stmt.stmt_sexp hnumber h.2.1, Stmt.stmt_sexp hnumber h.2.2]
    rfl
  | .loop condition body, h => by
    rw [Stmt.sexp, Sexp.stmt_list, Sexp.items, Sexp.items, Expr.expr_sexp hnumber h.1,
      Stmt.stmt_sexp hnumber h.2]
    rfl
  | .function _ name params body, h => by
    have hparams : ((params.map fun p => Sexp.word p.lexeme).map Sexp.text).map Token.named =
        params.map Token.unlined := by
      rw [List.map_map, List.map_map]
      exact List.map_congr_left fun p hp => (h.2.1 p hp).named_lexeme
    rw [Stmt.outline, ← hparams, ← Stmt.stmts_sexps hnumber h.2.2, ← h.1.named_lexeme]
    rfl
  | .ret keyword none, h => by
    rw [Stmt.outline, h.1.unlined_eq]
    rfl
  | .ret keyword (some value), h => by
    have hvalue : value.Textual := h.2
    rw [Stmt.sexp, Sexp.stmt_list, Sexp.items, Expr.expr_sexp hnumber hvalue, Stmt.outline,
      h.1.unlined_eq]
    rfl

theorem Stmt.stmts_sexps (hnumber : Number.ReadsBack number) : ∀ {ss : List Stmt},
    Stmt.TextualAll ss → (Sexp.items number (Stmt.sexps ss)).map Item.stmt = Stmt.outlineAll ss
  | [], _ => rfl
  | s :: ss, h => by
    rw [Stmt.sexps, Sexp.items, List.map_cons, Stmt.stmt_sexp hnumber h.1,
      Stmt.stmts_sexps hnumber h.2, Stmt.outlineAll]

end

end Statements

/-- The numbers that texts are written for. -/
theorem Number.exists_readsBack : ∃ number : String → Float, Number.ReadsBack number := by
  refine ⟨fun text => Classical.epsilon fun x => Number.plain x = text, fun x => ?_⟩
  exact Number.plain_injective
    (@Classical.epsilon_spec _ (fun y => Number.plain y = Number.plain x) ⟨x, rfl⟩)

/-- **Two statements are printed alike if and only if their outlines are the same.** -/
theorem Stmt.printed_eq_iff {s s' : Stmt} (h : s.Textual) (h' : s'.Textual) :
    s.printed = s'.printed ↔ s.outline = s'.outline := by
  constructor
  · intro heq
    have hsexp : s.sexp = s'.sexp := by
      refine Sexp.render_injective (Stmt.worded_sexp h) (Stmt.worded_sexp h') ?_
      rw [Stmt.render_sexp, Stmt.render_sexp, heq]
    obtain ⟨number, hnumber⟩ := Number.exists_readsBack
    rw [← Stmt.stmt_sexp hnumber h, ← Stmt.stmt_sexp hnumber h', hsexp]
  · intro heq
    rw [← Stmt.printed_outline s, ← Stmt.printed_outline s', heq]

end Nya
