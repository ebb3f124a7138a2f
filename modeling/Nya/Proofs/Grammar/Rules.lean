import Nya.Parse.Parser

/-!
# The grammar

The grammar of programs in extended Backus-Naur form, as data: `production` gives the right side of
each rule, and `Derives` says which words a right side has. A program is a word of
`declaration*`.

The rules do not say how a word is read. They are ambiguous where an `^e^` may belong to more than
one `^u^`, and they say nothing of the levels of operators but by naming them.

The one thing added to the rules is that the lists of arguments and parameters are bounded: `upTo`
is `many` with at most so many rounds.
-/

namespace Nya.Grammar

/-! ## Right sides -/

/-- What stands for a single token. -/
inductive Terminal where
  | symbol (s : Symbol)
  | identifier
  | number
  | string
  deriving DecidableEq, Repr

/-- Whether the terminal stands for the token. -/
def Terminal.admits : Terminal → Token → Bool
  | .symbol s, t => t.isSymbol s
  | .identifier, t => t.kind == .identifier
  | .number, t => match t.kind with
    | .number _ => true
    | _ => false
  | .string, t => match t.kind with
    | .string _ => true
    | _ => false

/-- The names of the rules. -/
inductive Nonterminal where
  | declaration | funDecl | varDecl
  | statement | exprStmt | printStmt | forStmt | whileStmt | ifStmt | returnStmt | block
  | parameters
  | expression | assignment
  | logicOr | logicAnd | equality | comparison | modulo | term | factor
  | unary | call | arguments | primary
  deriving DecidableEq, Repr

/-- The right side of a rule. -/
inductive Ebnf where
  | terminal (a : Terminal)
  | nonterminal (n : Nonterminal)
  | sequence (first second : Ebnf)
  | choice (first second : Ebnf)
  | option (part : Ebnf)
  | many (part : Ebnf)
  | upTo (count : Nat) (part : Ebnf)
  deriving DecidableEq, Repr

namespace Ebnf

instance : Append Ebnf := ⟨sequence⟩

instance : OrOp Ebnf := ⟨choice⟩

/-- The symbol itself. -/
def symbol (s : Symbol) : Ebnf := terminal (.symbol s)

/-- Any identifier. -/
def identifier : Ebnf := terminal .identifier

/-- Operands with an operator between any two of them. -/
def joined (operand : Nonterminal) (operator : Ebnf) : Ebnf :=
  nonterminal operand ++ many (operator ++ nonterminal operand)

/-- A list with commas, of at most as many items as a call may have. -/
def list (item : Ebnf) : Ebnf :=
  item ++ upTo (Parse.maxArguments - 1) (symbol .comma ++ item)

end Ebnf

/-! ## Rules -/

open Ebnf in
/-- The right side of each rule. -/
def production : Nonterminal → Ebnf
  | .declaration => nonterminal .funDecl ||| nonterminal .varDecl ||| nonterminal .statement
  | .funDecl =>
    symbol .function ++ identifier ++ symbol .leftParen ++ option (nonterminal .parameters) ++
      symbol .rightParen ++ nonterminal .block
  | .varDecl =>
    symbol .var ++ identifier ++ option (symbol .equal ++ nonterminal .expression) ++
      symbol .semicolon
  | .statement =>
    nonterminal .exprStmt ||| nonterminal .printStmt ||| nonterminal .forStmt |||
      nonterminal .whileStmt ||| nonterminal .ifStmt ||| nonterminal .block |||
      nonterminal .returnStmt
  | .exprStmt => nonterminal .expression ++ symbol .semicolon
  | .printStmt => symbol .print ++ nonterminal .expression ++ symbol .semicolon
  | .forStmt =>
    symbol .forLoop ++ symbol .leftParen ++
      (nonterminal .varDecl ||| nonterminal .exprStmt ||| symbol .semicolon) ++
      option (nonterminal .expression) ++ symbol .semicolon ++
      option (nonterminal .expression) ++ symbol .rightParen ++ nonterminal .statement
  | .whileStmt =>
    symbol .whileLoop ++ symbol .leftParen ++ nonterminal .expression ++ symbol .rightParen ++
      nonterminal .statement
  | .ifStmt =>
    symbol .ifThen ++ symbol .leftParen ++ nonterminal .expression ++ symbol .rightParen ++
      nonterminal .statement ++ option (symbol .ifElse ++ nonterminal .statement)
  | .returnStmt => symbol .ret ++ option (nonterminal .expression) ++ symbol .semicolon
  | .block => symbol .blockStart ++ many (nonterminal .declaration) ++ symbol .blockEnd
  | .parameters => list identifier
  | .expression => nonterminal .assignment
  | .assignment =>
    identifier ++ symbol .equal ++ nonterminal .assignment ||| nonterminal .logicOr
  | .logicOr => joined .logicAnd (symbol .or)
  | .logicAnd => joined .equality (symbol .and)
  | .equality => joined .comparison (symbol .bangEqual ||| symbol .equalEqual)
  | .comparison =>
    joined .modulo
      (symbol .greater ||| symbol .greaterEqual ||| symbol .less ||| symbol .lessEqual)
  | .modulo => joined .term (symbol .percent)
  | .term => joined .factor (symbol .minus ||| symbol .plus)
  | .factor => joined .unary (symbol .slash ||| symbol .star)
  | .unary => (symbol .bang ||| symbol .minus) ++ nonterminal .unary ||| nonterminal .call
  | .call =>
    nonterminal .primary ++
      many (symbol .leftParen ++ option (nonterminal .arguments) ++ symbol .rightParen)
  | .arguments => list (nonterminal .expression)
  | .primary =>
    terminal .number ||| terminal .string ||| symbol .yes ||| symbol .no ||| symbol .nil |||
      symbol .typeNumber ||| symbol .typeString ||| symbol .typeBoolean |||
      identifier ||| symbol .leftParen ++ nonterminal .expression ++ symbol .rightParen

/-- The words of a right side. -/
inductive Derives : Ebnf → List Token → Prop where
  | terminal {a : Terminal} {t : Token} (h : a.admits t = true) : Derives (.terminal a) [t]
  | nonterminal {n : Nonterminal} {w : List Token} (h : Derives (production n) w) :
      Derives (.nonterminal n) w
  | sequence {a b : Ebnf} {u v : List Token} (first : Derives a u) (second : Derives b v) :
      Derives (.sequence a b) (u ++ v)
  | first {a b : Ebnf} {w : List Token} (h : Derives a w) : Derives (.choice a b) w
  | second {a b : Ebnf} {w : List Token} (h : Derives b w) : Derives (.choice a b) w
  | absent {a : Ebnf} : Derives (.option a) []
  | present {a : Ebnf} {w : List Token} (h : Derives a w) : Derives (.option a) w
  | many {a : Ebnf} {us : List (List Token)} (h : ∀ u ∈ us, Derives a u) :
      Derives (.many a) us.flatten
  | upTo {a : Ebnf} {k : Nat} {us : List (List Token)} (hk : us.length ≤ k)
      (h : ∀ u ∈ us, Derives a u) : Derives (.upTo k a) us.flatten

/-! ## Words, one step at a time -/

/-- The words of a right side, when those of the rules are given. -/
def Matches (N : Nonterminal → List Token → Prop) : Ebnf → List Token → Prop
  | .terminal a, w => ∃ t, w = [t] ∧ a.admits t = true
  | .nonterminal n, w => N n w
  | .sequence a b, w => ∃ u v, w = u ++ v ∧ Matches N a u ∧ Matches N b v
  | .choice a b, w => Matches N a w ∨ Matches N b w
  | .option a, w => w = [] ∨ Matches N a w
  | .many a, w => ∃ us : List (List Token), w = us.flatten ∧ ∀ u ∈ us, Matches N a u
  | .upTo k a, w => ∃ us : List (List Token), us.length ≤ k ∧ w = us.flatten ∧
    ∀ u ∈ us, Matches N a u

section

variable {N : Nonterminal → List Token → Prop} {a b c : Ebnf} {w : List Token}

theorem matches_or : Matches N (a ||| b) w ↔ Matches N a w ∨ Matches N b w := Iff.rfl

theorem matches_symbol {s : Symbol} :
    Matches N (.symbol s) w ↔ ∃ t : Token, w = [t] ∧ t.isSymbol s = true := Iff.rfl

theorem matches_nonterminal {n : Nonterminal} : Matches N (.nonterminal n) w ↔ N n w := Iff.rfl

/-- Sequences may be read from either side. -/
theorem matches_assoc : Matches N (a ++ b ++ c) w ↔ Matches N (a ++ (b ++ c)) w := by
  constructor
  · rintro ⟨_, z, rfl, ⟨x, y, rfl, hx, hy⟩, hz⟩
    exact ⟨x, y ++ z, by rw [List.append_assoc], hx, y, z, rfl, hy, hz⟩
  · rintro ⟨x, _, rfl, hx, y, z, rfl, hy, hz⟩
    exact ⟨x ++ y, z, by rw [List.append_assoc], ⟨x, y, rfl, hx, hy⟩, hz⟩

end

/-- The words of a rule. -/
def Word (n : Nonterminal) (w : List Token) : Prop := Derives (.nonterminal n) w

variable {N : Nonterminal → List Token → Prop} {a b : Ebnf} {w : List Token}

theorem Derives.of_matches : ∀ {e : Ebnf} {w : List Token}, Matches Word e w → Derives e w
  | .terminal _, _, ⟨_, rfl, h⟩ => .terminal h
  | .nonterminal _, _, h => h
  | .sequence _ _, _, ⟨_, _, rfl, h, h'⟩ => .sequence (of_matches h) (of_matches h')
  | .choice _ _, _, .inl h => .first (of_matches h)
  | .choice _ _, _, .inr h => .second (of_matches h)
  | .option _, _, .inl rfl => .absent
  | .option _, _, .inr h => .present (of_matches h)
  | .many _, _, ⟨_, rfl, h⟩ => .many fun u hu => of_matches (h u hu)
  | .upTo _ _, _, ⟨_, hk, rfl, h⟩ => .upTo hk fun u hu => of_matches (h u hu)

/--
What holds of the words of each rule once it holds of the words inside them holds of all words.
The words inside are words of their rules, too.
-/
theorem Derives.matches (hN : ∀ n w, Matches (fun n w => Word n w ∧ N n w) (production n) w → N n w)
    {e : Ebnf} (h : Derives e w) : Matches (fun n w => Word n w ∧ N n w) e w := by
  induction h with
  | terminal h => exact ⟨_, rfl, h⟩
  | nonterminal h ih => exact ⟨.nonterminal h, hN _ _ ih⟩
  | sequence _ _ ih ih' => exact ⟨_, _, rfl, ih, ih'⟩
  | first _ ih => exact Or.inl ih
  | second _ ih => exact Or.inr ih
  | absent => exact Or.inl rfl
  | present _ ih => exact Or.inr ih
  | many _ ih => exact ⟨_, rfl, ih⟩
  | upTo hk _ ih => exact ⟨_, hk, rfl, ih⟩

theorem Word.induct (hN : ∀ n w, Matches (fun n w => Word n w ∧ N n w) (production n) w → N n w)
    {n : Nonterminal} (h : Word n w) : N n w :=
  (Derives.matches hN h).2

/-- A word of a rule is one of its right side. -/
theorem word_of_matches {n : Nonterminal} (h : Matches Word (production n) w) : Word n w :=
  .nonterminal (.of_matches h)

theorem Matches.mono {N N' : Nonterminal → List Token → Prop} (hN : ∀ n w, N n w → N' n w) :
    ∀ {e : Ebnf} {w : List Token}, Matches N e w → Matches N' e w
  | .terminal _, _, h => h
  | .nonterminal _, _, h => hN _ _ h
  | .sequence _ _, _, ⟨u, v, hw, h, h'⟩ => ⟨u, v, hw, mono hN h, mono hN h'⟩
  | .choice _ _, _, .inl h => Or.inl (mono hN h)
  | .choice _ _, _, .inr h => Or.inr (mono hN h)
  | .option _, _, .inl h => Or.inl h
  | .option _, _, .inr h => Or.inr (mono hN h)
  | .many _, _, ⟨us, hw, h⟩ => ⟨us, hw, fun u hu => mono hN (h u hu)⟩
  | .upTo _ _, _, ⟨us, hk, hw, h⟩ => ⟨us, hk, hw, fun u hu => mono hN (h u hu)⟩

theorem matches_of_word {n : Nonterminal} (h : Word n w) : Matches Word (production n) w := by
  cases h with
  | nonterminal h =>
    exact (Derives.matches (N := fun _ _ => True) (fun _ _ _ => trivial) h).mono fun _ _ h => h.1

/-- No word has a mark of the end. -/
theorem Derives.isEof {e : Ebnf} (h : Derives e w) : ∀ t ∈ w, t.isEof = false := by
  induction h with
  | @terminal a t h =>
    intro t' ht'
    rw [List.mem_singleton.mp ht']
    refine Bool.eq_false_iff.mpr fun heof => ?_
    have hkind : t.kind = .eof := by simpa [Token.isEof] using heof
    cases a <;> simp [Terminal.admits, Token.isSymbol, hkind] at h
  | nonterminal _ ih | first _ ih | second _ ih | present _ ih => exact ih
  | sequence _ _ ih ih' => exact fun t ht => (List.mem_append.mp ht).elim (ih t) (ih' t)
  | absent => simp
  | many _ ih | upTo _ _ ih =>
    intro t ht
    obtain ⟨u, hu, htu⟩ := List.mem_flatten.mp ht
    exact ih u hu t htu

/-! ## The tokens of words -/

/-- The right side has only such terminals, and names only such rules. -/
def Ebnf.within (terminals : Terminal → Bool) (rules : Nonterminal → Bool) : Ebnf → Bool
  | .terminal a => terminals a
  | .nonterminal n => rules n
  | .sequence a b | .choice a b => a.within terminals rules && b.within terminals rules
  | .option a | .many a | .upTo _ a => a.within terminals rules

/-- If rules name only each other and only such terminals, their words have no other tokens. -/
theorem Derives.within {terminals : Terminal → Bool} {rules : Nonterminal → Bool}
    (hrules : ∀ n, rules n = true → (production n).within terminals rules = true) {e : Ebnf}
    (h : Derives e w) (he : e.within terminals rules = true) :
    ∀ t ∈ w, ∃ a, terminals a = true ∧ a.admits t = true := by
  induction h with
  | @terminal a t ha =>
    intro t' ht'
    rw [List.mem_singleton.mp ht']
    exact ⟨a, he, ha⟩
  | nonterminal _ ih => exact ih (hrules _ he)
  | sequence _ _ ih ih' =>
    obtain ⟨ha, hb⟩ := Bool.and_eq_true_iff.mp he
    exact fun t ht => (List.mem_append.mp ht).elim (ih ha t) (ih' hb t)
  | first _ ih => exact ih (Bool.and_eq_true_iff.mp he).1
  | second _ ih => exact ih (Bool.and_eq_true_iff.mp he).2
  | absent => simp
  | present _ ih => exact ih he
  | many _ ih | upTo _ _ ih =>
    intro t ht
    obtain ⟨u, hu, htu⟩ := List.mem_flatten.mp ht
    exact ih u hu he t htu

end Nya.Grammar
