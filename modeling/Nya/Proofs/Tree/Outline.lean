import Nya.Proofs.Number.Plain
import Nya.Proofs.Token.Lexeme
import Nya.Proofs.Tree.Sexp

/-!
# What a printed tree shows

A printed tree shows neither numbers of nodes nor lines nor depths, and it does not tell a number
that is too large from a variable with the name `inf`. `Stmt.outline` is the tree without all this.

The printed tree is the text of a nested list (`Stmt.render_sexp`). Its words are words if the
tokens and literals of the tree are such as stand in texts: `Stmt.worded_sexp`.
-/

namespace Nya

/-! ## Outlines -/

/-- Whether the number is the one for all that are too large. -/
def Number.isInfinity (x : Float) : Bool := Number.shape x == .infinite && !Number.isNegative x

/-- A name, without a line. -/
def Token.named (name : String) : Token := ⟨.identifier, name, 0⟩

/-- The variable with a name, without a number. -/
def Reference.named (name : String) : Reference := ⟨0, .named name, none⟩

/-- What is shown of a literal. -/
def Literal.outline : Literal → Expr
  | .number x => if Number.isInfinity x then .read (.named "inf") else .literal 0 (.number x)
  | value => .literal 0 value

mutual

/-- What is shown of an expression. -/
def Expr.outline : Expr → Expr
  | .literal _ value => value.outline
  | .read target => .read target.plain
  | .assign target value => .assign target.plain value.outline
  | .unary _ operator right => .unary 0 operator.unlined right.outline
  | .binary _ left operator right => .binary 0 left.outline operator.unlined right.outline
  | .logical _ left operator right => .logical 0 left.outline operator.unlined right.outline
  | .group _ inner => .group 0 inner.outline
  | .call _ callee arguments paren =>
    .call 0 callee.outline (Expr.outlineAll arguments) paren.unlined

/-- The same of a list of expressions. -/
def Expr.outlineAll : List Expr → List Expr
  | [] => []
  | e :: es => e.outline :: Expr.outlineAll es

end

mutual

/-- What is shown of a statement. -/
def Stmt.outline : Stmt → Stmt
  | .expression e => .expression e.outline
  | .print e => .print e.outline
  | .var name init => .var name.unlined (init.map Expr.outline)
  | .block body => .block (Stmt.outlineAll body)
  | .branch condition thenBranch none => .branch condition.outline thenBranch.outline none
  | .branch condition thenBranch (some elseBranch) =>
    .branch condition.outline thenBranch.outline (some elseBranch.outline)
  | .loop condition body => .loop condition.outline body.outline
  | .function _ name params body =>
    .function 0 name.unlined (params.map Token.unlined) (Stmt.outlineAll body)
  | .ret keyword value => .ret keyword.unlined (value.map Expr.outline)

/-- The same of a list of statements. -/
def Stmt.outlineAll : List Stmt → List Stmt
  | [] => []
  | s :: ss => s.outline :: Stmt.outlineAll ss

end

/-- A number that is too large is printed like a variable. -/
theorem Number.plain_of_isInfinity {x : Float} (h : Number.isInfinity x = true) :
    Number.plain x = "inf" := by
  simp only [isInfinity, Bool.and_eq_true, beq_iff_eq, Bool.not_eq_true'] at h
  rw [plain_eq, h.1, h.2]
  rfl

/-- The outline of a literal is printed as the literal is. -/
theorem Literal.printed_outline (value : Literal) : value.outline.printed = value.printed := by
  cases value with
  | number x =>
    rw [outline]
    split
    · next h => exact (Number.plain_of_isInfinity h).symm
    · rfl
  | string | boolean | nil => rfl

mutual

/-- The outline is printed like the tree. -/
theorem Expr.printed_outline : ∀ e : Expr, e.outline.printed = e.printed
  | .literal _ value => value.printed_outline
  | .read _ => rfl
  | .assign _ value => by simp only [outline, printed, printed_outline value]; rfl
  | .unary _ _ right => by simp only [outline, printed, printed_outline right]; rfl
  | .binary _ left _ right | .logical _ left _ right => by
    simp only [outline, printed, printed_outline left, printed_outline right]; rfl
  | .group _ inner => by simp only [outline, printed, printed_outline inner]
  | .call _ callee arguments _ => by
    simp only [outline, printed, printed_outline callee, printedAll_outline arguments]

theorem Expr.printedAll_outline : ∀ es : List Expr,
    Expr.printedAll (Expr.outlineAll es) = Expr.printedAll es
  | [] => rfl
  | e :: es => by simp only [outlineAll, printedAll, printed_outline e, printedAll_outline es]

end

mutual

/-- The outline of a statement is printed as the statement is. -/
theorem Stmt.printed_outline : ∀ s : Stmt, s.outline.printed = s.printed
  | .expression e | .print e => by simp only [outline, printed, Expr.printed_outline e]
  | .var _ none | .ret _ none => rfl
  | .var _ (some e) => by
    simp only [outline, printed, Option.map_some, Expr.printed_outline e]; rfl
  | .ret _ (some e) => by simp only [outline, printed, Option.map_some, Expr.printed_outline e]
  | .block body => by simp only [outline, printed, printedAll_outline body]
  | .branch condition thenBranch none => by
    simp only [outline, printed, Expr.printed_outline condition, printed_outline thenBranch]
  | .branch condition thenBranch (some elseBranch) => by
    simp only [outline, printed, Expr.printed_outline condition, printed_outline thenBranch,
      printed_outline elseBranch]
  | .loop condition body => by
    simp only [outline, printed, Expr.printed_outline condition, printed_outline body]
  | .function _ _ params body => by
    simp only [outline, printed, printedAll_outline body, List.map_map]; rfl

theorem Stmt.printedAll_outline : ∀ ss : List Stmt,
    Stmt.printedAll (Stmt.outlineAll ss) = Stmt.printedAll ss
  | [] => rfl
  | s :: ss => by simp only [outlineAll, printedAll, printed_outline s, printedAll_outline ss]

end

/-! ## Nested lists -/

mutual

/-- An expression as a nested list. -/
def Expr.sexp : Expr → Sexp
  | .literal _ value => .word value.printed
  | .read target => .word target.name.lexeme
  | .assign target value => .list [.word "o/", .word target.name.lexeme, value.sexp]
  | .unary _ operator right => .list [.word operator.lexeme, right.sexp]
  | .binary _ left operator right | .logical _ left operator right =>
    .list [.word operator.lexeme, left.sexp, right.sexp]
  | .group _ inner => .list [.word "group", inner.sexp]
  | .call _ callee arguments _ => .list (.word "call" :: callee.sexp :: Expr.sexps arguments)

/-- The same of a list of expressions. -/
def Expr.sexps : List Expr → List Sexp
  | [] => []
  | e :: es => e.sexp :: Expr.sexps es

end

mutual

/-- A statement as a nested list. -/
def Stmt.sexp : Stmt → Sexp
  | .expression e => .list [.word ";", e.sexp]
  | .print e => .list [.word "pwint", e.sexp]
  | .var name none => .list [.word ">.<", .word name.lexeme]
  | .var name (some init) => .list [.word ">.<", .word name.lexeme, init.sexp]
  | .block body => .list (.word "block" :: Stmt.sexps body)
  | .branch condition thenBranch none =>
    .list [.word "^u^", condition.sexp, thenBranch.sexp]
  | .branch condition thenBranch (some elseBranch) =>
    .list [.word "^u^", condition.sexp, thenBranch.sexp, elseBranch.sexp]
  | .loop condition body => .list [.word "^w^", condition.sexp, body.sexp]
  | .function _ name params body =>
    .list (.word ":D" :: .word name.lexeme :: .list (params.map fun p => .word p.lexeme) ::
      Stmt.sexps body)
  | .ret _ none => .list [.word "c:"]
  | .ret _ (some value) => .list [.word "c:", value.sexp]

/-- The same of a list of statements. -/
def Stmt.sexps : List Stmt → List Sexp
  | [] => []
  | s :: ss => s.sexp :: Stmt.sexps ss

end

mutual

/-- The text of the nested list is the printed expression. -/
theorem Expr.render_sexp : ∀ e : Expr, e.sexp.render = e.printed.toList
  | .literal _ _ | .read _ => rfl
  | .assign _ value => Sexp.render_list (by simp [render_sexp value])
  | .unary _ _ right => Sexp.render_list (by simp [render_sexp right])
  | .binary _ left _ right | .logical _ left _ right =>
    Sexp.render_list (by simp [render_sexp left, render_sexp right])
  | .group _ inner => Sexp.render_list (by simp [render_sexp inner])
  | .call _ callee arguments _ =>
    Sexp.render_list (by simp [render_sexp callee, render_sexps arguments])

theorem Expr.render_sexps : ∀ es : List Expr,
    (Expr.sexps es).map Sexp.render = (Expr.printedAll es).map String.toList
  | [] => rfl
  | e :: es => by simp [sexps, printedAll, render_sexp e, render_sexps es]

end

mutual

/-- A statement is printed as its nested list is rendered. -/
theorem Stmt.render_sexp : ∀ s : Stmt, s.sexp.render = s.printed.toList
  | .expression e | .print e => Sexp.render_list (by simp [Expr.render_sexp e])
  | .var _ none | .ret _ none => Sexp.render_list (by simp)
  | .var _ (some e) | .ret _ (some e) =>
    Sexp.render_list (by simp [Expr.render_sexp e])
  | .block body => Sexp.render_list (by simp [render_sexps body])
  | .branch condition thenBranch none =>
    Sexp.render_list (by simp [Expr.render_sexp condition, render_sexp thenBranch])
  | .branch condition thenBranch (some elseBranch) =>
    Sexp.render_list (by
      simp [Expr.render_sexp condition, render_sexp thenBranch,
        render_sexp elseBranch])
  | .loop condition body =>
    Sexp.render_list (by simp [Expr.render_sexp condition, render_sexp body])
  | .function _ _ params body => by
    have hparams : (Sexp.list (params.map fun p => .word p.lexeme)).render =
        (bracketed (params.map Token.lexeme)).toList :=
      Sexp.render_list (by simp [Function.comp_def])
    exact Sexp.render_list (by simp [hparams, render_sexps body])

theorem Stmt.render_sexps : ∀ ss : List Stmt,
    (Stmt.sexps ss).map Sexp.render = (Stmt.printedAll ss).map String.toList
  | [] => rfl
  | s :: ss => by simp [sexps, printedAll, render_sexp s, render_sexps ss]

end

/-! ## Trees from texts -/

/-- The token has a lexeme of its kind. -/
def Token.Lexical (t : Token) : Prop := t.kind.Lexeme t.lexeme.toList

/-- The token is one of the symbols. -/
def Token.Spells (t : Token) (symbols : List Symbol) : Prop :=
  t.Lexical ∧ ∃ s ∈ symbols, t.kind = .symbol s

/-- The token is an identifier. -/
def Token.Names (t : Token) : Prop := t.Lexical ∧ t.kind = .identifier

/-- A literal as it may stand in a text. -/
def Literal.Textual : Literal → Prop
  | .number x => Number.shape x ≠ .nan
  | .string text => '"' ∉ text.toList
  | _ => True

/-- The symbols that join two expressions to one with a value of its own. -/
def Symbol.binary : List Symbol :=
  [.bangEqual, .equalEqual, .greater, .greaterEqual, .less, .lessEqual, .percent, .minus, .plus,
    .slash, .star]

mutual

/-- The tokens and literals of an expression are such as stand in texts. -/
def Expr.Textual : Expr → Prop
  | .literal _ value => value.Textual
  | .read target => target.name.Names
  | .assign target value => target.name.Names ∧ value.Textual
  | .unary _ operator right => operator.Spells [.bang, .minus] ∧ right.Textual
  | .binary _ left operator right =>
    left.Textual ∧ operator.Spells Symbol.binary ∧ right.Textual
  | .logical _ left operator right => left.Textual ∧ operator.Spells [.and, .or] ∧ right.Textual
  | .group _ inner => inner.Textual
  | .call _ callee arguments paren =>
    callee.Textual ∧ Expr.TextualAll arguments ∧ paren.Spells [.rightParen]

/-- The same of a list of expressions. -/
def Expr.TextualAll : List Expr → Prop
  | [] => True
  | e :: es => e.Textual ∧ Expr.TextualAll es

end

/-- The same of an expression that may be missing. -/
def Expr.TextualOption : Option Expr → Prop
  | none => True
  | some e => e.Textual

mutual

/-- The tokens and literals of a statement are such as stand in texts. -/
def Stmt.Textual : Stmt → Prop
  | .expression e | .print e => e.Textual
  | .var name init => name.Names ∧ Expr.TextualOption init
  | .block body => Stmt.TextualAll body
  | .branch condition thenBranch none => condition.Textual ∧ thenBranch.Textual
  | .branch condition thenBranch (some elseBranch) =>
    condition.Textual ∧ thenBranch.Textual ∧ elseBranch.Textual
  | .loop condition body => condition.Textual ∧ body.Textual
  | .function _ name params body =>
    name.Names ∧ (∀ p ∈ params, p.Names) ∧ Stmt.TextualAll body
  | .ret keyword value => keyword.Spells [.ret] ∧ Expr.TextualOption value

/-- The same of a list of statements. -/
def Stmt.TextualAll : List Stmt → Prop
  | [] => True
  | s :: ss => s.Textual ∧ Stmt.TextualAll ss

end

/-! ## Words of trees -/

/-- A letter or digit is no space and no parenthesis. -/
theorem isPlain_of_isWordPart {c : Char} (h : Scan.isWordPart c = true) :
    Sexp.isPlain c = true := by
  rw [Sexp.isPlain, decide_eq_true_iff]
  intro hc
  simp only [List.mem_cons, List.not_mem_nil, or_false] at hc
  rcases hc with rfl | rfl | rfl | rfl <;> cases h

/-- A text of plain characters is one word. -/
theorem isWord_of_plain {text : List Char} (hne : text ≠ [])
    (h : text.all Sexp.isPlain = true) : Sexp.IsWord text := by
  obtain ⟨c, cs, rfl⟩ := List.exists_cons_of_ne_nil hne
  exact Or.inr ⟨c, cs, rfl, List.all_eq_true.mp h⟩

/-- The lexeme of a name starts like a word, goes on like one, and is no keyword. -/
theorem Token.Names.exists_lexeme {t : Token} (h : t.Names) : ∃ c cs, t.lexeme.toList = c :: cs ∧
    Scan.isWordStart c = true ∧ (∀ d ∈ cs, Scan.isWordPart d = true) ∧
      ∀ s ∈ Symbol.keywords, t.lexeme ≠ s.spelling := by
  obtain ⟨hlexical, hkind⟩ := h
  rw [Lexical, hkind] at hlexical
  obtain ⟨⟨c, cs, htext, hc, hcs⟩, hkeyword⟩ := hlexical
  exact ⟨c, cs, htext, Scan.isWordStart_iff.mpr hc, fun d hd => Scan.isWordPart_iff.mpr (hcs d hd),
    fun s hs heq => hkeyword s hs (heq ▸ rfl)⟩

/-- A name is printed as one word. -/
theorem Token.Names.isWord {t : Token} (h : t.Names) : Sexp.IsWord t.lexeme.toList := by
  obtain ⟨c, cs, htext, hc, hcs, -⟩ := h.exists_lexeme
  refine Or.inr ⟨c, cs, htext, List.forall_mem_cons.mpr ⟨?_, fun d hd => ?_⟩⟩
  · exact isPlain_of_isWordPart (Scan.isWordPart_of_isWordStart hc)
  · exact isPlain_of_isWordPart (hcs d hd)

/-- A symbol has its spelling as its lexeme. -/
theorem Token.Spells.exists_lexeme {t : Token} {symbols : List Symbol} (h : t.Spells symbols) :
    ∃ s ∈ symbols, t.kind = .symbol s ∧ t.lexeme = s.spelling := by
  obtain ⟨hlexical, s, hs, hkind⟩ := h
  rw [Lexical, hkind] at hlexical
  exact ⟨s, hs, hkind, String.toList_inj.mp hlexical⟩

/-- The symbols that are the head of a printed expression. -/
def Symbol.heads : List Symbol := [.bang, .minus] ++ Symbol.binary ++ [.and, .or]

/-- An operator is printed as one word. -/
theorem Token.Spells.isWord {t : Token} {symbols : List Symbol} (h : t.Spells symbols)
    (hsub : ∀ s ∈ symbols, s ∈ Symbol.heads) : Sexp.IsWord t.lexeme.toList := by
  have hall : ∀ s ∈ Symbol.heads, s.spelling.toList ≠ [] ∧
      s.spelling.toList.all Sexp.isPlain = true := by decide
  obtain ⟨s, hs, -, hlexeme⟩ := h.exists_lexeme
  obtain ⟨hne, hplain⟩ := hall s (hsub s hs)
  rw [hlexeme]
  exact isWord_of_plain hne hplain

/-- A number is printed in plain characters, and there is at least one. -/
theorem Number.isPlain_text (s : Number.Shape) : ∃ c cs, s.text.toList = c :: cs ∧
    ∀ d ∈ c :: cs, Sexp.isPlain d = true := by
  cases s with
  | nan => exact ⟨'N', ['a', 'N'], rfl, List.all_eq_true.mp rfl⟩
  | infinite => exact ⟨'i', ['n', 'f'], rfl, List.all_eq_true.mp rfl⟩
  | finite m q =>
    obtain ⟨c, cs, htext, hc, hcs⟩ := Number.text_finite m q
    have hdigit : ∀ {d : Char}, d.isDigit = true → Sexp.isPlain d = true :=
      fun hd => isPlain_of_isWordPart (Scan.isWordPart_of_isDigit hd)
    refine ⟨c, cs, htext, List.forall_mem_cons.mpr ⟨hdigit hc, fun d hd => ?_⟩⟩
    rcases hcs d hd with hd | rfl
    · exact hdigit hd
    · rfl

theorem Number.isWord_plain (x : Float) : Sexp.IsWord (Number.plain x).toList := by
  obtain ⟨c, cs, htext, hplain⟩ := Number.isPlain_text (Number.shape x)
  rw [Number.plain_eq]
  split
  · refine Or.inr ⟨'-', c :: cs, ?_, List.forall_mem_cons.mpr ⟨rfl, hplain⟩⟩
    rw [String.toList_append, htext]
    rfl
  · exact Or.inr ⟨c, cs, htext, hplain⟩

/-- A number is not written like a name, unless it is too large. -/
theorem Number.isWordStart_plain {x : Float} (hnan : Number.shape x ≠ .nan)
    (hlarge : Number.isInfinity x = false) :
    ∃ c cs, (Number.plain x).toList = c :: cs ∧ Scan.isWordStart c = false ∧ c ≠ '"' := by
  rw [Number.plain_eq]
  split
  · exact ⟨'-', _, by rw [String.toList_append]; rfl, rfl, by decide⟩
  · next hsign =>
    cases hshape : Number.shape x with
    | nan => exact absurd hshape hnan
    | infinite =>
      have hpositive := Bool.eq_false_iff.mpr fun hnegative => hsign ⟨hnan, hnegative⟩
      simp [Number.isInfinity, hshape, hpositive] at hlarge
    | finite m q =>
      obtain ⟨c, cs, htext, hc, -⟩ := Number.text_finite m q
      refine ⟨c, cs, htext, ?_, ?_⟩
      · refine Bool.eq_false_iff.mpr fun hstart => ?_
        rw [Scan.isDigit_of_isWordStart hstart] at hc
        cases hc
      · rintro rfl
        cases hc

/-- The other heads of printed trees. -/
def fixedHeads : List String :=
  ["o/", "group", "call", ";", "pwint", ">.<", "block", "^u^", "^w^", ":D", "c:"]

/-- What a list may start with besides an operator is one word. -/
theorem isWord_fixedHead {text : String} (h : text ∈ fixedHeads) : Sexp.IsWord text.toList := by
  have hall : ∀ text ∈ fixedHeads, text.toList ≠ [] ∧ text.toList.all Sexp.isPlain = true := by
    decide
  obtain ⟨hne, hplain⟩ := hall text h
  exact isWord_of_plain hne hplain

/-- A literal of a text is printed as one word. -/
theorem Literal.Textual.isWord {value : Literal} (h : value.Textual) :
    Sexp.IsWord value.printed.toList := by
  cases value with
  | number x => exact Number.isWord_plain x
  | string text =>
    refine Or.inl ⟨text.toList, ?_, h⟩
    simp [printed]
  | boolean b => cases b <;> exact isWord_of_plain (by decide) (by decide)
  | nil => exact isWord_of_plain (by decide) (by decide)

mutual

/-- The words in the nested list of an expression are words. -/
theorem Expr.worded_sexp : ∀ {e : Expr}, e.Textual → e.sexp.Worded
  | .literal _ _, h => Literal.Textual.isWord h
  | .read _, h => Token.Names.isWord h
  | .assign _ _, h =>
    ⟨isWord_fixedHead (by decide), Token.Names.isWord h.1, Expr.worded_sexp h.2, trivial⟩
  | .unary _ _ _, h => ⟨h.1.isWord (by decide), Expr.worded_sexp h.2, trivial⟩
  | .binary _ _ _ _, h | .logical _ _ _ _, h =>
    ⟨h.2.1.isWord (by decide), Expr.worded_sexp h.1, Expr.worded_sexp h.2.2, trivial⟩
  | .group _ _, h => ⟨isWord_fixedHead (by decide), Expr.worded_sexp h, trivial⟩
  | .call _ _ _ _, h =>
    ⟨isWord_fixedHead (by decide), Expr.worded_sexp h.1, Expr.worded_sexps h.2.1⟩

theorem Expr.worded_sexps : ∀ {es : List Expr}, Expr.TextualAll es → Sexp.WordedAll (Expr.sexps es)
  | [], _ => trivial
  | _ :: _, h => ⟨Expr.worded_sexp h.1, Expr.worded_sexps h.2⟩

end

/-- The names of parameters are words. -/
theorem worded_names {params : List Token} (h : ∀ p ∈ params, p.Names) :
    Sexp.WordedAll (params.map fun p => .word p.lexeme) := by
  induction params with
  | nil => trivial
  | cons p params ih =>
    obtain ⟨hp, hparams⟩ := List.forall_mem_cons.mp h
    exact ⟨hp.isWord, ih hparams⟩

mutual

/-- The words in the nested list of a statement are words. -/
theorem Stmt.worded_sexp : ∀ {s : Stmt}, s.Textual → s.sexp.Worded
  | .expression _, h | .print _, h =>
    ⟨isWord_fixedHead (by decide), Expr.worded_sexp h, trivial⟩
  | .var _ none, h => ⟨isWord_fixedHead (by decide), h.1.isWord, trivial⟩
  | .var _ (some _), h =>
    ⟨isWord_fixedHead (by decide), h.1.isWord, Expr.worded_sexp h.2, trivial⟩
  | .block _, h => ⟨isWord_fixedHead (by decide), Stmt.worded_sexps h⟩
  | .branch _ _ none, h =>
    ⟨isWord_fixedHead (by decide), Expr.worded_sexp h.1, Stmt.worded_sexp h.2, trivial⟩
  | .branch _ _ (some _), h =>
    ⟨isWord_fixedHead (by decide), Expr.worded_sexp h.1, Stmt.worded_sexp h.2.1,
      Stmt.worded_sexp h.2.2, trivial⟩
  | .loop _ _, h =>
    ⟨isWord_fixedHead (by decide), Expr.worded_sexp h.1, Stmt.worded_sexp h.2, trivial⟩
  | .function _ _ params _, h =>
    ⟨isWord_fixedHead (by decide), h.1.isWord, worded_names h.2.1, Stmt.worded_sexps h.2.2⟩
  | .ret _ none, _ => ⟨isWord_fixedHead (by decide), trivial⟩
  | .ret _ (some _), h => ⟨isWord_fixedHead (by decide), Expr.worded_sexp h.2, trivial⟩

theorem Stmt.worded_sexps : ∀ {ss : List Stmt}, Stmt.TextualAll ss → Sexp.WordedAll (Stmt.sexps ss)
  | [], _ => trivial
  | _ :: _, h => ⟨Stmt.worded_sexp h.1, Stmt.worded_sexps h.2⟩

end

end Nya
